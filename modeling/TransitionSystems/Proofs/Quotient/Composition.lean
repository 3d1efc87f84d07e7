import TransitionSystems.Proofs.Isomorphism
import TransitionSystems.Proofs.Quotient.Simulation

/-!
Quotients of quotients. If a partition of the blocks of a partition is given, the blocks that belong
together can be merged, which gives a partition of the states (`IsPartition.merge`). The quotient by
the merged blocks is, up to the names of the states, the quotient of the quotient
(`quotient_quotient_isomorphic`).
-/
namespace TransitionSystems

namespace Partition

/-- The block of `Q` for which the state `u` stands, empty if it stands for none. -/
def namedBlock (Q : Partition) (u : State) : List State :=
  (Q.find? fun B => State.ofMembers B = u).getD []

/-- The blocks of `Q` for which the states of `D` stand, one after the other. -/
def mergedBlock (Q : Partition) (D : List State) : List State := D.flatMap Q.namedBlock

def merge (Q R : Partition) : Partition := R.map Q.mergedBlock

theorem mem_namedBlock {Q : Partition} {u s : State} :
    s ∈ Q.namedBlock u ↔ ∃ B ∈ Q, u = .ofMembers B ∧ s ∈ B := by
  unfold namedBlock
  constructor
  · intro hs
    cases hfind : Q.find? fun B => State.ofMembers B = u with
    | none => simp [hfind] at hs
    | some B =>
      have hname : State.ofMembers B = u := by simpa using List.find?_some hfind
      exact ⟨B, List.mem_of_find?_eq_some hfind, hname.symm, by simpa [hfind] using hs⟩
  · rintro ⟨B, hB, rfl, hs⟩
    cases hfind : Q.find? fun C => State.ofMembers C = State.ofMembers B with
    | none =>
      have hnone := List.find?_eq_none.mp hfind B hB
      simp at hnone
    | some C =>
      have hname : State.ofMembers C = .ofMembers B := by simpa using List.find?_some hfind
      exact (State.ofMembers_eq_iff.mp hname s).mpr hs

theorem mem_mergedBlock {Q : Partition} {D : List State} {s : State} :
    s ∈ Q.mergedBlock D ↔ ∃ B ∈ Q, State.ofMembers B ∈ D ∧ s ∈ B := by
  simp only [mergedBlock, List.mem_flatMap, mem_namedBlock]
  constructor
  · rintro ⟨_, hD, B, hB, rfl, hs⟩
    exact ⟨B, hB, hD, hs⟩
  · rintro ⟨B, hB, hD, hs⟩
    exact ⟨_, hD, B, hB, rfl, hs⟩

end Partition

namespace State

/-- A block of blocks becomes the block of all their members. -/
def unnest : State → State
  | block us => .ofMembers (us.flatMap fun u => u.members?.getD [])
  | s => s

theorem unnest_ofMembers_map (Bs : List (List State)) :
    unnest (.ofMembers (Bs.map .ofMembers)) = .ofMembers Bs.flatten := by
  rw [ofMembers, unnest, ofMembers_eq_iff]
  intro s
  simp [mem_ascending, ofMembers, members?]

end State

namespace System

variable {S : System} {Q R : Partition} {D E : List State} {s u : State} {a : Action}

theorem IsPartition.exists_block (hR : (S.quotientParts Q).IsPartition R) (hD : D ∈ R)
    (hu : u ∈ D) : ∃ B ∈ Q, u = .ofMembers B :=
  mem_states_quotientParts.mp (hR.declared D hD u hu)

/-- Merged blocks share a state only if the same block went into both. -/
theorem IsPartition.exists_mem_of_mem_mergedBlock (hQ : S.IsPartition Q)
    (hD : s ∈ Q.mergedBlock D) (hE : s ∈ Q.mergedBlock E) : ∃ u ∈ D, u ∈ E := by
  obtain ⟨B, hB, hBD, hsB⟩ := Partition.mem_mergedBlock.mp hD
  obtain ⟨C, hC, hCE, hsC⟩ := Partition.mem_mergedBlock.mp hE
  rw [← hQ.eq_of_mem hB hC hsB hsC] at hCE
  exact ⟨_, hBD, hCE⟩

theorem IsPartition.exists_mem_mergedBlock (hQ : S.IsPartition Q)
    (hR : (S.quotientParts Q).IsPartition R) (hD : D ∈ R) : ∃ s, s ∈ Q.mergedBlock D := by
  obtain ⟨u, hu⟩ := hR.exists_mem hD
  obtain ⟨B, hB, rfl⟩ := hR.exists_block hD hu
  obtain ⟨s, hs⟩ := hQ.exists_mem hB
  exact ⟨s, Partition.mem_mergedBlock.mpr ⟨B, hB, hu, hs⟩⟩

theorem IsPartition.merge (hQ : S.IsPartition Q) (hR : (S.quotientParts Q).IsPartition R) :
    S.IsPartition (Q.merge R) where
  nonempty := by
    intro M hM
    obtain ⟨D, hD, rfl⟩ := List.mem_map.mp hM
    obtain ⟨s, hs⟩ := hQ.exists_mem_mergedBlock hR hD
    exact List.ne_nil_of_mem hs
  declared := by
    intro M hM s hs
    obtain ⟨D, _, rfl⟩ := List.mem_map.mp hM
    obtain ⟨B, hB, _, hsB⟩ := Partition.mem_mergedBlock.mp hs
    exact hQ.declared B hB s hsB
  covered := by
    intro s hs
    obtain ⟨B, hB, hsB⟩ := hQ.covered s hs
    obtain ⟨D, hD, hBD⟩ := hR.covered _ (ofMembers_mem_states S hB)
    exact ⟨_, List.mem_map.mpr ⟨D, hD, rfl⟩, Partition.mem_mergedBlock.mpr ⟨B, hB, hBD, hsB⟩⟩
  disjoint := by
    rw [Partition.merge, List.pairwise_map]
    refine hR.disjoint.imp ?_
    intro D E hdisjoint s hs hs'
    obtain ⟨u, hu, hu'⟩ := hQ.exists_mem_of_mem_mergedBlock hs hs'
    exact hdisjoint u hu hu'

/-! ## The two constructions -/

theorem IsPartition.unnest_ofMembers (hR : (S.quotientParts Q).IsPartition R) (hD : D ∈ R) :
    State.unnest (.ofMembers D) = .ofMembers (Q.mergedBlock D) := by
  rw [State.ofMembers, State.unnest, State.ofMembers_eq_iff]
  intro s
  simp only [List.mem_flatMap, State.mem_ascending, Partition.mem_mergedBlock]
  constructor
  · rintro ⟨u, hu, hs⟩
    obtain ⟨B, hB, rfl⟩ := hR.exists_block hD hu
    exact ⟨B, hB, hu, State.mem_ascending.mp hs⟩
  · rintro ⟨B, _, hu, hs⟩
    exact ⟨_, hu, State.mem_ascending.mpr hs⟩

theorem map_unnest_ofMembers (hR : (S.quotientParts Q).IsPartition R) {Ds : Partition}
    (hDs : ∀ D ∈ Ds, D ∈ R) :
    (Ds.map State.ofMembers).map State.unnest = (Ds.map Q.mergedBlock).map State.ofMembers := by
  rw [List.map_map, List.map_map]
  exact List.map_congr_left fun D hD => hR.unnest_ofMembers (hDs D hD)

/-- If a property of blocks holds just where a state of the block has a property, then it holds of
one of the blocks that are merged just where a state of the merged block has it. -/
theorem IsPartition.exists_block_iff (hR : (S.quotientParts Q).IsPartition R) (hD : D ∈ R)
    {P P' : State → Prop} (h : ∀ B ∈ Q, P' (.ofMembers B) ↔ ∃ s ∈ B, P s) :
    (∃ u ∈ D, P' u) ↔ ∃ s ∈ Q.mergedBlock D, P s := by
  simp only [Partition.mem_mergedBlock]
  constructor
  · rintro ⟨u, hu, hP⟩
    obtain ⟨B, hB, rfl⟩ := hR.exists_block hD hu
    obtain ⟨s, hs, hP⟩ := (h B hB).mp hP
    exact ⟨s, ⟨B, hB, hu, hs⟩, hP⟩
  · rintro ⟨s, ⟨B, hB, hu, hs⟩, hP⟩
    exact ⟨_, hu, (h B hB).mpr ⟨s, hs, hP⟩⟩

theorem merged_mem_successorsBy_iff (hQ : S.IsPartition Q)
    (hR : (S.quotientParts Q).IsPartition R) (hD : D ∈ R) (hE : E ∈ R) :
    State.ofMembers (Q.mergedBlock E) ∈
        (S.quotientParts (Q.merge R)).successorsBy (.ofMembers (Q.mergedBlock D)) a ↔
      State.ofMembers E ∈
        ((S.quotientParts Q).quotientParts R).successorsBy (.ofMembers D) a := by
  rw [(hQ.merge hR).block_mem_successorsBy_iff (List.mem_map.mpr ⟨D, hD, rfl⟩)
    (List.mem_map.mpr ⟨E, hE, rfl⟩), hR.block_mem_successorsBy_iff hD hE]
  refine and_congr_right fun ha => Iff.symm (hR.exists_block_iff hD fun B hB => ?_)
  have hsteps : ∀ C ∈ Q, State.ofMembers C ∈ (S.quotientParts Q).successorsBy (.ofMembers B) a ↔
      ∃ t ∈ C, ∃ s ∈ B, t ∈ S.successorsBy s a := by
    intro C hC
    rw [hQ.block_mem_successorsBy_iff hB hC, and_iff_right ha]
    constructor
    · rintro ⟨s, hs, t, ht, hstep⟩
      exact ⟨t, ht, s, hs, hstep⟩
    · rintro ⟨t, ht, s, hs, hstep⟩
      exact ⟨s, hs, t, ht, hstep⟩
  rw [hR.exists_block_iff hE hsteps]
  constructor
  · rintro ⟨t, ht, s, hs, hstep⟩
    exact ⟨s, hs, t, ht, hstep⟩
  · rintro ⟨s, hs, t, ht, hstep⟩
    exact ⟨t, ht, s, hs, hstep⟩

theorem any_isInitial_mergedBlock (hQ : S.IsPartition Q)
    (hR : (S.quotientParts Q).IsPartition R) (hD : D ∈ R) :
    (Q.mergedBlock D).any S.isInitial = D.any (S.quotientParts Q).isInitial := by
  rw [Bool.eq_iff_iff, List.any_eq_true, List.any_eq_true]
  exact (hR.exists_block_iff hD fun B hB => hQ.isInitial_quotientParts hB).symm

theorem initial_unnest (hQ : S.IsPartition Q) (hR : (S.quotientParts Q).IsPartition R) :
    (S.quotientParts (Q.merge R)).initial =
      ((S.quotientParts Q).quotientParts R).initial.map State.unnest := by
  have hkept : R.filter ((·.any S.isInitial) ∘ Q.mergedBlock) =
      R.filter (·.any (S.quotientParts Q).isInitial) :=
    List.filter_congr fun D hD => any_isInitial_mergedBlock hQ hR hD
  calc ((Q.merge R).filter (·.any S.isInitial)).map State.ofMembers
    _ = ((R.filter (·.any (S.quotientParts Q).isInitial)).map Q.mergedBlock).map .ofMembers := by
        rw [Partition.merge, List.filter_map, hkept]
    _ = _ := (map_unnest_ofMembers hR fun _ hD => (List.mem_filter.mp hD).1).symm

theorem isomorphicBy_unnest (hS : S.Valid) (hQ : S.IsPartition Q)
    (hR : (S.quotientParts Q).IsPartition R) :
    IsomorphicBy State.unnest ((S.quotientParts Q).quotientParts R)
      (S.quotientParts (Q.merge R)) := by
  have hM : S.IsPartition (Q.merge R) := hQ.merge hR
  have hmerged : ∀ D ∈ R, Q.mergedBlock D ∈ Q.merge R := fun D hD => List.mem_map.mpr ⟨D, hD, rfl⟩
  have hstates : (S.quotientParts (Q.merge R)).states =
      ((S.quotientParts Q).quotientParts R).states.map State.unnest :=
    (map_unnest_ofMembers hR fun _ hD => hD).symm
  refine ⟨hstates, ?_, rfl, initial_unnest hQ hR, rfl, ?_, ?_⟩
  · intro x hx y hy h
    obtain ⟨D, hD, rfl⟩ := mem_states_quotientParts.mp hx
    obtain ⟨E, hE, rfl⟩ := mem_states_quotientParts.mp hy
    rw [hR.unnest_ofMembers hD, hR.unnest_ofMembers hE] at h
    obtain ⟨s, hs⟩ := hQ.exists_mem_mergedBlock hR hD
    obtain ⟨u, hu, hu'⟩ :=
      hQ.exists_mem_of_mem_mergedBlock hs ((State.ofMembers_eq_iff.mp h s).mp hs)
    rw [hR.eq_of_mem hD hE hu hu']
  · intro x hx a u
    obtain ⟨D, hD, rfl⟩ := mem_states_quotientParts.mp hx
    refine mem_successorsBy_map_iff ((hS.quotientParts hQ).quotientParts hR) (hS.quotientParts hM)
      hstates ?_
    intro y hy
    obtain ⟨E, hE, rfl⟩ := mem_states_quotientParts.mp hy
    rw [hR.unnest_ofMembers hD, hR.unnest_ofMembers hE]
    exact merged_mem_successorsBy_iff hQ hR hD hE
  · intro x hx
    obtain ⟨D, hD, rfl⟩ := mem_states_quotientParts.mp hx
    rw [hR.unnest_ofMembers hD, Label.agrees_iff]
    intro p
    rw [hM.mem_label_quotientParts (hmerged D hD), hR.mem_label_quotientParts hD]
    exact (hR.exists_block_iff hD fun B hB => hQ.mem_label_quotientParts hB).symm

/-- **A quotient of a quotient is a quotient.** Its partition merges the blocks that are put
together. -/
theorem quotient_quotient_isomorphic (hS : S.Valid) (hQ : S.IsPartition Q) :
    ∃ q, S.quotient Q = .ok q ∧ ∀ R, q.IsPartition R →
      S.IsPartition (Q.merge R) ∧
        ∃ L M, q.quotient R = .ok L ∧ S.quotient (Q.merge R) = .ok M ∧
          (∀ Bs : List (List State),
            State.unnest (.ofMembers (Bs.map .ofMembers)) = .ofMembers Bs.flatten) ∧
          IsomorphicBy State.unnest L M := by
  have hq := hS.quotientParts hQ
  refine ⟨_, quotient_eq_ok hQ fun s _ => hS.proposition s, fun R hR => ?_⟩
  have hM := hQ.merge hR
  exact ⟨hM, _, _, quotient_eq_ok hR fun u _ => hq.proposition u,
    quotient_eq_ok hM fun s _ => hS.proposition s, State.unnest_ofMembers_map,
    isomorphicBy_unnest hS hQ hR⟩

/-- Paying apart from the rest. One block is listed twice, and another one with its states in
another order than in `drinkBlocks`. -/
def serviceBlocks : Partition :=
  [[.ofMembers (State.ofNames ["select"]), .ofMembers (State.ofNames ["soda", "beer"]),
      .ofMembers (State.ofNames ["select"])],
    [.ofMembers (State.ofNames ["pay"])]]

/-- The merged quotient starts with paying, and taking a drink leads back to it. -/
theorem quotient_quotient_isomorphic_serviceBlocks :
    Catalogue.beverageVendingMachine.Valid ∧
      Catalogue.beverageVendingMachine.IsPartition drinkBlocks ∧
      drinkBlocks.merge serviceBlocks =
        [State.ofNames ["select", "beer", "soda", "select"], State.ofNames ["pay"]] ∧
      ∃ q, Catalogue.beverageVendingMachine.quotient drinkBlocks = .ok q ∧
        q.IsPartition serviceBlocks ∧
        Catalogue.beverageVendingMachine.IsPartition (drinkBlocks.merge serviceBlocks) ∧
        ∃ L M, q.quotient serviceBlocks = .ok L ∧
          Catalogue.beverageVendingMachine.quotient (drinkBlocks.merge serviceBlocks) = .ok M ∧
          M.initial = [.ofMembers (State.ofNames ["pay"])] ∧
          State.ofMembers (State.ofNames ["pay"]) ∈
            M.successorsBy (.ofMembers (State.ofNames ["select", "beer", "soda"]))
              ⟨"get_beer"⟩ := by
  have hS := Catalogue.beverageVendingMachine_valid
  have hQ : Catalogue.beverageVendingMachine.IsPartition drinkBlocks :=
    partitionViolation?_eq_none_iff.mp (by decide)
  obtain ⟨q, hq, hcompose⟩ := quotient_quotient_isomorphic hS hQ
  obtain ⟨_, _, rfl⟩ := of_quotient_eq_ok hq
  have hR : (Catalogue.beverageVendingMachine.quotientParts drinkBlocks).IsPartition
      serviceBlocks := partitionViolation?_eq_none_iff.mp (by decide)
  obtain ⟨hM, L, M, hL, hM', _, hiso⟩ := hcompose serviceBlocks hR
  obtain ⟨_, _, rfl⟩ := of_quotient_eq_ok hL
  refine ⟨hS, hQ, by decide, _, hq, hR, hM, _, M, hL, hM', ?_, ?_⟩
  · rw [hiso.initial]
    decide
  · have hsteps := hiso.steps (.ofMembers [.ofMembers (State.ofNames ["select"]),
      .ofMembers (State.ofNames ["beer", "soda"])]) (by decide) ⟨"get_beer"⟩
    exact (hsteps _).mpr ⟨.ofMembers [.ofMembers (State.ofNames ["pay"])], by decide, by decide⟩

end System
end TransitionSystems
