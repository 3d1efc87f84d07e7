import TransitionSystems.Catalogue
import TransitionSystems.Proofs.Interleaving.Steps
import TransitionSystems.Proofs.Isomorphism
import TransitionSystems.Proofs.Quotient.Steps

/-!
Interleavings of quotients are quotients of interleavings. Two partitions give one of the pairs,
whose blocks are the boxes of a block of either (`IsPartition.boxes`). Taking the quotients first
and interleaving them gives, up to the names of the states, the same system as interleaving first
and taking the quotient by the boxes (`interleave_quotient_isomorphic`).
-/
namespace TransitionSystems

namespace Partition

/-- All pairs of a state of `B` and a state of `C`. -/
def box (B C : List State) : List State := (ListSet.pairs B C).map fun (s, t) => .product s t

/-- The boxes of a block of `Q` and a block of `R`; the block of `Q` varies slowest. -/
def boxes (Q R : Partition) : Partition := (ListSet.pairs Q R).map fun (B, C) => box B C

theorem mem_box {B C : List State} {u : State} :
    u ∈ box B C ↔ ∃ s ∈ B, ∃ t ∈ C, u = .product s t :=
  ListSet.mem_map_pairs

theorem product_mem_box {B C : List State} {s t : State} :
    .product s t ∈ box B C ↔ s ∈ B ∧ t ∈ C :=
  State.product_mem_map_pairs

theorem mem_boxes {Q R : Partition} {D : List State} :
    D ∈ boxes Q R ↔ ∃ B ∈ Q, ∃ C ∈ R, D = box B C :=
  ListSet.mem_map_pairs

theorem box_mem_boxes {Q R : Partition} {B C : List State} (hB : B ∈ Q) (hC : C ∈ R) :
    box B C ∈ boxes Q R :=
  mem_boxes.mpr ⟨B, hB, C, hC, rfl⟩

end Partition

/-- A pair of blocks becomes the block of their box. -/
def State.joinBlocks : State → State
  | .product (.block ss) (.block ts) => .ofMembers (Partition.box ss ts)
  | s => s

theorem State.joinBlocks_product (B C : List State) :
    joinBlocks (.product (.ofMembers B) (.ofMembers C)) = .ofMembers (Partition.box B C) := by
  rw [ofMembers, ofMembers, joinBlocks, ofMembers_eq_iff]
  simp [Partition.mem_box, mem_ascending]

namespace System

variable {S T : System} {Q R : Partition} {B C B' C' : List State} {u : State} {a : Action}

theorem IsPartition.boxes (hQ : S.IsPartition Q) (hR : T.IsPartition R) :
    (S.interleavingParts T).IsPartition (Q.boxes R) where
  nonempty := by
    intro D hD
    obtain ⟨B, hB, C, hC, rfl⟩ := Partition.mem_boxes.mp hD
    obtain ⟨s, hs⟩ := hQ.exists_mem hB
    obtain ⟨t, ht⟩ := hR.exists_mem hC
    exact List.ne_nil_of_mem (Partition.product_mem_box.mpr ⟨hs, ht⟩)
  declared := by
    intro D hD u hu
    obtain ⟨B, hB, C, hC, rfl⟩ := Partition.mem_boxes.mp hD
    obtain ⟨s, hs, t, ht, rfl⟩ := Partition.mem_box.mp hu
    exact product_mem_states_interleavingParts.mpr
      ⟨hQ.declared B hB s hs, hR.declared C hC t ht⟩
  covered := by
    intro u hu
    obtain ⟨s, hs, t, ht, rfl⟩ := mem_states_interleavingParts.mp hu
    obtain ⟨B, hB, hsB⟩ := hQ.covered s hs
    obtain ⟨C, hC, htC⟩ := hR.covered t ht
    exact ⟨_, Partition.box_mem_boxes hB hC, Partition.product_mem_box.mpr ⟨hsB, htC⟩⟩
  disjoint := by
    rw [Partition.boxes, List.pairwise_map, ListSet.pairs, List.pairwise_flatMap]
    constructor
    · intro B hB
      rw [List.pairwise_map]
      refine hR.disjoint.imp ?_
      intro C C' hdisjoint u hu hu'
      obtain ⟨s, _, t, ht, rfl⟩ := Partition.mem_box.mp hu
      have ht' : t ∈ C' := (Partition.product_mem_box.mp hu').2
      exact hdisjoint t ht ht'
    · refine hQ.disjoint.imp ?_
      intro B B' hdisjoint x hx y hy u hu hu'
      obtain ⟨C, _, rfl⟩ := List.mem_map.mp hx
      obtain ⟨C', _, rfl⟩ := List.mem_map.mp hy
      obtain ⟨s, hs, t, _, rfl⟩ := Partition.mem_box.mp hu
      have hs' : s ∈ B' := (Partition.product_mem_box.mp hu').1
      exact hdisjoint s hs hs'

/-! ## The two constructions -/

/-- The quotient by the boxes steps from box to box as the quotients of the sides step from block to
block. -/
theorem box_mem_successorsBy_iff (hS : S.Valid) (hT : T.Valid) (hQ : S.IsPartition Q)
    (hR : T.IsPartition R) (hB : B ∈ Q) (hC : C ∈ R) (hB' : B' ∈ Q) (hC' : C' ∈ R) :
    State.ofMembers (Partition.box B' C') ∈
        ((S.interleavingParts T).quotientParts (Q.boxes R)).successorsBy
          (.ofMembers (Partition.box B C)) a ↔
      (C' = C ∧ State.ofMembers B' ∈ (S.quotientParts Q).successorsBy (.ofMembers B) a) ∨
        (B' = B ∧ State.ofMembers C' ∈ (T.quotientParts R).successorsBy (.ofMembers C) a) := by
  have hbox : Partition.box B C ∈ Q.boxes R := Partition.box_mem_boxes hB hC
  have hbox' : Partition.box B' C' ∈ Q.boxes R := Partition.box_mem_boxes hB' hC'
  rw [(hQ.boxes hR).block_mem_successorsBy_iff hbox hbox', hQ.block_mem_successorsBy_iff hB hB',
    hR.block_mem_successorsBy_iff hC hC']
  have hsteps (s t u : State) (hs : s ∈ B) (ht : t ∈ C) :=
    mem_successorsBy_interleavingParts hS hT (hQ.declared B hB s hs) (hR.declared C hC t ht)
      (u := u) (a := a)
  constructor
  · rintro ⟨_, v, hv, w, hw, hstep⟩
    obtain ⟨s, hs, t, ht, rfl⟩ := Partition.mem_box.mp hv
    obtain ⟨s', hs', t', ht', rfl⟩ := Partition.mem_box.mp hw
    rcases (hsteps s t _ hs ht).mp hstep with ⟨_, hmove, heq⟩ | ⟨_, hmove, heq⟩
    · cases heq
      have hsame := hR.eq_of_mem hC' hC ht' ht
      exact Or.inl ⟨hsame, hS.action_of_step hmove, s, hs, s', hs', hmove⟩
    · cases heq
      have hsame := hQ.eq_of_mem hB' hB hs' hs
      exact Or.inr ⟨hsame, hT.action_of_step hmove, t, ht, t', ht', hmove⟩
  · -- the side that does not move rests in any state of its block
    rintro (⟨rfl, ha, s, hs, s', hs', hmove⟩ | ⟨rfl, ha, t, ht, t', ht', hmove⟩)
    · obtain ⟨t, ht⟩ := hR.exists_mem hC
      have hstep := (hsteps s t _ hs ht).mpr (Or.inl ⟨s', hmove, rfl⟩)
      exact ⟨mem_actions_interleavingParts.mpr (Or.inl ha),
        _, Partition.product_mem_box.mpr ⟨hs, ht⟩,
        _, Partition.product_mem_box.mpr ⟨hs', ht⟩, hstep⟩
    · obtain ⟨s, hs⟩ := hQ.exists_mem hB
      have hstep := (hsteps s t _ hs ht).mpr (Or.inr ⟨t', hmove, rfl⟩)
      exact ⟨mem_actions_interleavingParts.mpr (Or.inr ha),
        _, Partition.product_mem_box.mpr ⟨hs, ht⟩,
        _, Partition.product_mem_box.mpr ⟨hs, ht'⟩, hstep⟩

theorem mem_label_box (hQ : S.IsPartition Q) (hR : T.IsPartition R) (hB : B ∈ Q) (hC : C ∈ R)
    (p : Proposition) :
    p ∈ ((S.interleavingParts T).quotientParts (Q.boxes R)).label (.ofMembers (Partition.box B C)) ↔
      p ∈ (S.quotientParts Q).label (.ofMembers B) ∨
        p ∈ (T.quotientParts R).label (.ofMembers C) := by
  have hbox : Partition.box B C ∈ Q.boxes R := Partition.box_mem_boxes hB hC
  have hlabel (s t : State) (hs : s ∈ B) (ht : t ∈ C) :
      (S.interleavingParts T).label (.product s t) = S.label s ++ T.label t :=
    label_interleavingParts (hQ.declared B hB s hs) (hR.declared C hC t ht)
  rw [(hQ.boxes hR).mem_label_quotientParts hbox, hQ.mem_label_quotientParts hB,
    hR.mem_label_quotientParts hC]
  constructor
  · rintro ⟨u, hu, hp⟩
    obtain ⟨s, hs, t, ht, rfl⟩ := Partition.mem_box.mp hu
    rw [hlabel s t hs ht] at hp
    rcases List.mem_append.mp hp with hp | hp
    · exact Or.inl ⟨s, hs, hp⟩
    · exact Or.inr ⟨t, ht, hp⟩
  · rintro (⟨s, hs, hp⟩ | ⟨t, ht, hp⟩)
    · obtain ⟨t, ht⟩ := hR.exists_mem hC
      refine ⟨_, Partition.product_mem_box.mpr ⟨hs, ht⟩, ?_⟩
      rw [hlabel s t hs ht]
      exact List.mem_append_left _ hp
    · obtain ⟨s, hs⟩ := hQ.exists_mem hB
      refine ⟨_, Partition.product_mem_box.mpr ⟨hs, ht⟩, ?_⟩
      rw [hlabel s t hs ht]
      exact List.mem_append_right _ hp

theorem any_isInitial_box (S T : System) (B C : List State) :
    (Partition.box B C).any (S.interleavingParts T).isInitial =
      (B.any S.isInitial && C.any T.isInitial) := by
  rw [Bool.eq_iff_iff]
  simp only [Bool.and_eq_true, List.any_eq_true, isInitial, decide_eq_true_eq]
  constructor
  · rintro ⟨u, hu, hinit⟩
    obtain ⟨s, hs, t, ht, rfl⟩ := Partition.mem_box.mp hu
    obtain ⟨hs', ht'⟩ := product_mem_initial_interleavingParts.mp hinit
    exact ⟨⟨s, hs, hs'⟩, ⟨t, ht, ht'⟩⟩
  · rintro ⟨⟨s, hs, hs'⟩, ⟨t, ht, ht'⟩⟩
    exact ⟨_, Partition.product_mem_box.mpr ⟨hs, ht⟩,
      product_mem_initial_interleavingParts.mpr ⟨hs', ht'⟩⟩

/-- The pairs of blocks of two lists, each joined to the block of its box. -/
theorem map_joinBlocks_pairs (Q R : Partition) :
    ((ListSet.pairs (Q.map State.ofMembers) (R.map State.ofMembers)).map
        fun (s, t) => State.product s t).map State.joinBlocks =
      (Q.boxes R).map .ofMembers := by
  simp only [ListSet.pairs_map, Partition.boxes, List.map_map, Function.comp_def,
    State.joinBlocks_product]

theorem states_interleavingParts_quotientParts (S T : System) (Q R : Partition) :
    ((S.quotientParts Q).interleavingParts (T.quotientParts R)).states =
      (ListSet.pairs Q R).map fun (B, C) => .product (.ofMembers B) (.ofMembers C) := by
  simp only [interleavingParts, quotientParts, ListSet.pairs_map, List.map_map, Function.comp_def]

/-- Boxes of blocks of partitions have the same members only if they are one box. -/
theorem IsPartition.eq_of_box_eq (hQ : S.IsPartition Q) (hR : T.IsPartition R) (hB : B ∈ Q)
    (hC : C ∈ R) (hB' : B' ∈ Q) (hC' : C' ∈ R)
    (h : State.ofMembers (Partition.box B C) = .ofMembers (Partition.box B' C')) :
    B = B' ∧ C = C' := by
  obtain ⟨s, hs⟩ := hQ.exists_mem hB
  obtain ⟨t, ht⟩ := hR.exists_mem hC
  have hmem : .product s t ∈ Partition.box B C := Partition.product_mem_box.mpr ⟨hs, ht⟩
  have hmem' : .product s t ∈ Partition.box B' C' := (State.ofMembers_eq_iff.mp h _).mp hmem
  obtain ⟨hs', ht'⟩ := Partition.product_mem_box.mp hmem'
  exact ⟨hQ.eq_of_mem hB hB' hs hs', hR.eq_of_mem hC hC' ht ht'⟩

theorem steps_joinBlocks (hS : S.Valid) (hT : T.Valid) (hQ : S.IsPartition Q)
    (hR : T.IsPartition R) (hB : B ∈ Q) (hC : C ∈ R) :
    u ∈ ((S.interleavingParts T).quotientParts (Q.boxes R)).successorsBy
        (.ofMembers (Partition.box B C)) a ↔
      ∃ v ∈ ((S.quotientParts Q).interleavingParts (T.quotientParts R)).successorsBy
        (.product (.ofMembers B) (.ofMembers C)) a, v.joinBlocks = u := by
  have hSQ := hS.quotientParts hQ
  have hTR := hT.quotientParts hR
  have hM := (hS.interleavingParts hT).quotientParts (hQ.boxes hR)
  have hsides (v : State) := mem_successorsBy_interleavingParts hSQ hTR (u := v) (a := a)
    (ofMembers_mem_states S hB) (ofMembers_mem_states T hC)
  constructor
  · intro hu
    obtain ⟨D, hD, rfl⟩ := mem_states_quotientParts.mp (hM.target_of_step hu)
    obtain ⟨B', hB', C', hC', rfl⟩ := Partition.mem_boxes.mp hD
    refine ⟨_, (hsides _).mpr ?_, State.joinBlocks_product B' C'⟩
    rcases (box_mem_successorsBy_iff hS hT hQ hR hB hC hB' hC').mp hu with
      ⟨rfl, hstep⟩ | ⟨rfl, hstep⟩
    · exact Or.inl ⟨_, hstep, rfl⟩
    · exact Or.inr ⟨_, hstep, rfl⟩
  · rintro ⟨v, hv, rfl⟩
    rcases (hsides v).mp hv with ⟨b, hb, rfl⟩ | ⟨c, hc, rfl⟩
    · obtain ⟨B', hB', rfl⟩ := mem_states_quotientParts.mp (hSQ.target_of_step hb)
      rw [State.joinBlocks_product]
      exact (box_mem_successorsBy_iff hS hT hQ hR hB hC hB' hC).mpr (Or.inl ⟨rfl, hb⟩)
    · obtain ⟨C', hC', rfl⟩ := mem_states_quotientParts.mp (hTR.target_of_step hc)
      rw [State.joinBlocks_product]
      exact (box_mem_successorsBy_iff hS hT hQ hR hB hC hB hC').mpr (Or.inr ⟨rfl, hc⟩)

theorem initial_joinBlocks (S T : System) (Q R : Partition) :
    ((S.interleavingParts T).quotientParts (Q.boxes R)).initial =
      ((S.quotientParts Q).interleavingParts (T.quotientParts R)).initial.map State.joinBlocks := by
  have hboxes : (Q.boxes R).filter (·.any (S.interleavingParts T).isInitial) =
      Partition.boxes (Q.filter (·.any S.isInitial)) (R.filter (·.any T.isInitial)) := by
    rw [Partition.boxes, Partition.boxes, ListSet.pairs_filter, List.filter_map]
    simp only [Function.comp_def, any_isInitial_box]
  calc ((Q.boxes R).filter (·.any (S.interleavingParts T).isInitial)).map State.ofMembers
    _ = (Partition.boxes (Q.filter (·.any S.isInitial)) (R.filter (·.any T.isInitial))).map
          .ofMembers := by rw [hboxes]
    _ = _ := (map_joinBlocks_pairs _ _).symm

theorem isomorphicBy_joinBlocks (hS : S.Valid) (hT : T.Valid) (hQ : S.IsPartition Q)
    (hR : T.IsPartition R) :
    IsomorphicBy State.joinBlocks
      ((S.quotientParts Q).interleavingParts (T.quotientParts R))
      ((S.interleavingParts T).quotientParts (Q.boxes R)) := by
  have hblocks : ∀ x ∈ ((S.quotientParts Q).interleavingParts (T.quotientParts R)).states,
      ∃ B ∈ Q, ∃ C ∈ R, x = .product (.ofMembers B) (.ofMembers C) := by
    intro x hx
    rw [states_interleavingParts_quotientParts] at hx
    exact ListSet.mem_map_pairs.mp hx
  refine ⟨(map_joinBlocks_pairs Q R).symm, ?_, rfl, initial_joinBlocks S T Q R, rfl, ?_, ?_⟩
  · intro x hx y hy h
    obtain ⟨B, hB, C, hC, rfl⟩ := hblocks x hx
    obtain ⟨B', hB', C', hC', rfl⟩ := hblocks y hy
    rw [State.joinBlocks_product, State.joinBlocks_product] at h
    obtain ⟨rfl, rfl⟩ := hQ.eq_of_box_eq hR hB hC hB' hC' h
    rfl
  · intro x hx a u
    obtain ⟨B, hB, C, hC, rfl⟩ := hblocks x hx
    rw [State.joinBlocks_product]
    exact steps_joinBlocks hS hT hQ hR hB hC
  · intro x hx
    obtain ⟨B, hB, C, hC, rfl⟩ := hblocks x hx
    rw [State.joinBlocks_product, Label.agrees_iff]
    intro p
    rw [mem_label_box hQ hR hB hC, label_interleavingParts (ofMembers_mem_states S hB)
      (ofMembers_mem_states T hC), List.mem_append]

/-- **Interleaving commutes with taking quotients.** -/
theorem interleave_quotient_isomorphic (hS : S.Valid) (hT : T.Valid) (hQ : S.IsPartition Q)
    (hR : T.IsPartition R) :
    ∃ P SQ TR L M, S.interleave T = .ok P ∧ P.IsPartition (Q.boxes R) ∧
      S.quotient Q = .ok SQ ∧ T.quotient R = .ok TR ∧ SQ.interleave TR = .ok L ∧
      P.quotient (Q.boxes R) = .ok M ∧
      (L.states = (ListSet.pairs Q R).map fun (B, C) => .product (.ofMembers B) (.ofMembers C)) ∧
      (∀ B C, State.joinBlocks (.product (.ofMembers B) (.ofMembers C)) =
        .ofMembers (Partition.box B C)) ∧
      IsomorphicBy State.joinBlocks L M := by
  have hP := hS.interleavingParts hT
  have hSQ := hS.quotientParts hQ
  have hTR := hT.quotientParts hR
  exact ⟨_, _, _, _, _, interleave_eq_ok hS hT, hQ.boxes hR,
    quotient_eq_ok hQ fun s _ => hS.proposition s, quotient_eq_ok hR fun t _ => hT.proposition t,
    interleave_eq_ok hSQ hTR, quotient_eq_ok (hQ.boxes hR) fun u _ => hP.proposition u,
    states_interleavingParts_quotientParts S T Q R, State.joinBlocks_product,
    isomorphicBy_joinBlocks hS hT hQ hR⟩

/-- One of the blocks lists a state twice. -/
def chainBlocks : Partition := [State.ofNames ["1", "2", "1"], State.ofNames ["3"]]

/-- States with different labels share a block. -/
def machineBlocks : Partition :=
  [State.ofNames ["soda", "pay"], State.ofNames ["select"], State.ofNames ["beer"]]

/-- The chain leaves its first block while the machine stays in its middle one. -/
theorem interleave_quotient_isomorphic_chainBlocks :
    Catalogue.simpleChain.IsPartition chainBlocks ∧
      Catalogue.beverageVendingMachine.IsPartition machineBlocks ∧
      ∃ P SQ TR L M, Catalogue.simpleChain.interleave Catalogue.beverageVendingMachine = .ok P ∧
        P.IsPartition (chainBlocks.boxes machineBlocks) ∧
        Catalogue.simpleChain.quotient chainBlocks = .ok SQ ∧
        Catalogue.beverageVendingMachine.quotient machineBlocks = .ok TR ∧
        SQ.interleave TR = .ok L ∧ P.quotient (chainBlocks.boxes machineBlocks) = .ok M ∧
        M.initial = [.ofMembers (Partition.box (State.ofNames ["1", "2"])
          (State.ofNames ["soda", "pay"]))] ∧
        State.ofMembers (Partition.box (State.ofNames ["3"]) (State.ofNames ["select"])) ∈
          M.successorsBy (.ofMembers (Partition.box (State.ofNames ["1", "2"])
            (State.ofNames ["select"]))) ⟨"a"⟩ := by
  have hQ : Catalogue.simpleChain.IsPartition chainBlocks :=
    partitionViolation?_eq_none_iff.mp (by decide)
  have hR : Catalogue.beverageVendingMachine.IsPartition machineBlocks :=
    partitionViolation?_eq_none_iff.mp (by decide)
  obtain ⟨P, SQ, TR, L, M, hP, hboxes, hSQ, hTR, hL, hM, _, hjoin, hiso⟩ :=
    interleave_quotient_isomorphic Catalogue.simpleChain_valid
      Catalogue.beverageVendingMachine_valid hQ hR
  obtain ⟨_, hvalidQ, rfl⟩ := of_quotient_eq_ok hSQ
  obtain ⟨_, hvalidR, rfl⟩ := of_quotient_eq_ok hTR
  obtain rfl : _ = L := Except.ok.inj ((interleave_eq_ok hvalidQ hvalidR).symm.trans hL)
  refine ⟨hQ, hR, P, _, _, _, M, hP, hboxes, hSQ, hTR, hL, hM, ?_, ?_⟩
  · rw [hiso.initial]
    decide
  · rw [← hjoin, ← hjoin]
    exact (hiso.steps (.product (.ofMembers (State.ofNames ["1", "2"]))
      (.ofMembers (State.ofNames ["select"]))) (by decide) ⟨"a"⟩ _).mpr ⟨_, by decide, rfl⟩

end System
end TransitionSystems
