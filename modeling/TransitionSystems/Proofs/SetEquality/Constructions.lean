import Mathlib.Data.List.Perm.Basic
import TransitionSystems.Catalogue
import TransitionSystems.Proofs.Interleaving.Steps
import TransitionSystems.Proofs.Quotient.Steps
import TransitionSystems.Proofs.SetEquality.Answers

/-!
Constructions on systems that are equal as sets. A partition may be rearranged: its blocks listed in
another order, and each block as another list of the same states. Then it still fits the system, or
does not fit it as before, and the quotients are equal as sets (`SetEqual.quotientParts`). So are
interleavings (`SetEqual.interleavingParts`). In sum, nothing depends on how the sets of a system
are listed (`answers_depend_on_sets`).
-/
namespace TransitionSystems

namespace Partition

/-- In some order, the blocks of `Q` have the same states as those of `Q'`, block by block. -/
def Rearranges (Q Q' : Partition) : Prop :=
  ∃ P : Partition, Q.Perm P ∧ List.Forall₂ (fun B C => ListSet.isSame B C = true) P Q'

variable {Q Q' : Partition}

/-- Written in ascending order, the blocks are the same, repeats included. -/
theorem rearranges_iff :
    Q.Rearranges Q' ↔ (Q.map State.ascending).Perm (Q'.map State.ascending) := by
  have hsame (P : Partition) : List.Forall₂ (fun B C => ListSet.isSame B C = true) P Q' ↔
      P.map State.ascending = Q'.map State.ascending := by
    rw [← List.forall₂_eq_eq_eq, List.forall₂_map_left_iff, List.forall₂_map_right_iff]
    simp only [ListSet.isSame_iff, State.ascending_eq_iff]
  simp only [Rearranges, hsame]
  constructor
  · rintro ⟨P, hperm, heq⟩
    rw [← heq]
    exact hperm.map _
  · intro hperm
    have hcomp : Relation.Comp (fun P P' => P = P'.map State.ascending) List.Perm
        (Q'.map State.ascending) Q := by
      rw [List.eq_map_comp_perm]
      exact hperm.symm
    obtain ⟨P, heq, hPQ⟩ := hcomp
    exact ⟨P, hPQ.symm, heq.symm⟩

theorem Rearranges.symm (h : Q.Rearranges Q') : Q'.Rearranges Q :=
  rearranges_iff.mpr (rearranges_iff.mp h).symm

theorem Rearranges.exists_same (h : Q.Rearranges Q') {B : List State} (hB : B ∈ Q) :
    ∃ C ∈ Q', ∀ s, s ∈ B ↔ s ∈ C := by
  have hmem := (rearranges_iff.mp h).mem_iff.mp (List.mem_map.mpr ⟨B, hB, rfl⟩)
  obtain ⟨C, hC, heq⟩ := List.mem_map.mp hmem
  exact ⟨C, hC, State.ascending_eq_iff.mp heq.symm⟩

/-- Some block has a property that depends on its states alone. -/
theorem Rearranges.exists_iff (h : Q.Rearranges Q') {P P' : List State → Prop}
    (hP : ∀ B C : List State, (∀ s, s ∈ B ↔ s ∈ C) → (P B ↔ P' C)) :
    (∃ B ∈ Q, P B) ↔ ∃ C ∈ Q', P' C := by
  constructor
  · rintro ⟨B, hB, hPB⟩
    obtain ⟨C, hC, hsame⟩ := h.exists_same hB
    exact ⟨C, hC, (hP B C hsame).mp hPB⟩
  · rintro ⟨C, hC, hPC⟩
    obtain ⟨B, hB, hsame⟩ := h.symm.exists_same hC
    exact ⟨B, hB, (hP B C fun s => (hsame s).symm).mpr hPC⟩

theorem Rearranges.pairwise_disjoint (h : Q.Rearranges Q')
    (hQ : Q.Pairwise fun B C => ∀ s ∈ B, s ∉ C) : Q'.Pairwise fun B C => ∀ s ∈ B, s ∉ C := by
  have hascending (P : Partition) : (P.map State.ascending).Pairwise (fun B C => ∀ s ∈ B, s ∉ C) ↔
      P.Pairwise fun B C => ∀ s ∈ B, s ∉ C := by
    simp only [List.pairwise_map, State.mem_ascending]
  rw [← hascending] at hQ ⊢
  refine (List.Perm.pairwise_iff ?_ (rearranges_iff.mp h)).mp hQ
  intro B C hdisjoint s hC hB
  exact hdisjoint s hB hC

end Partition

namespace System

variable {S S' T T' : System} {Q Q' : Partition}

/-! ## Quotients -/

theorem SetEqual.isPartition (h : SetEqual S S') (hr : Q.Rearranges Q') (hQ : S.IsPartition Q) :
    S'.IsPartition Q' where
  nonempty := by
    intro C hC
    obtain ⟨B, hB, hsame⟩ := hr.symm.exists_same hC
    obtain ⟨s, hs⟩ := hQ.exists_mem hB
    exact List.ne_nil_of_mem ((hsame s).mpr hs)
  declared := by
    intro C hC s hs
    obtain ⟨B, hB, hsame⟩ := hr.symm.exists_same hC
    exact (h.states s).mp (hQ.declared B hB s ((hsame s).mp hs))
  covered := by
    intro s hs
    obtain ⟨B, hB, hsB⟩ := hQ.covered s ((h.states s).mpr hs)
    obtain ⟨C, hC, hsame⟩ := hr.exists_same hB
    exact ⟨C, hC, (hsame s).mp hsB⟩
  disjoint := hr.pairwise_disjoint hQ.disjoint

theorem SetEqual.isPartition_iff (h : SetEqual S S') (hr : Q.Rearranges Q') :
    S.IsPartition Q ↔ S'.IsPartition Q' :=
  ⟨h.isPartition hr, h.symm.isPartition hr.symm⟩

theorem SetEqual.sameLabels (h : SetEqual S S') (hr : Q.Rearranges Q') (hQ : S.SameLabels Q) :
    S'.SameLabels Q' := by
  intro C hC s hs t ht
  obtain ⟨B, hB, hsame⟩ := hr.symm.exists_same hC
  have hst := hQ B hB s ((hsame s).mp hs) t ((hsame t).mp ht)
  rw [Label.agrees_iff] at hst ⊢
  intro p
  rw [← h.mem_label_iff, ← h.mem_label_iff, hst]

theorem SetEqual.sameLabels_iff (h : SetEqual S S') (hr : Q.Rearranges Q') :
    S.SameLabels Q ↔ S'.SameLabels Q' :=
  ⟨h.sameLabels hr, h.symm.sameLabels hr.symm⟩

theorem SetEqual.quotientParts (h : SetEqual S S') (hr : Q.Rearranges Q') (hQ : S.IsPartition Q) :
    SetEqual (S.quotientParts Q) (S'.quotientParts Q') := by
  have hQ' := h.isPartition hr hQ
  have hname {B C : List State} (hsame : ∀ s, s ∈ B ↔ s ∈ C) : State.ofMembers B = .ofMembers C :=
    State.ofMembers_eq_iff.mpr hsame
  rw [setEqual_iff]
  simp only [ListSet.isSame_iff]
  refine ⟨h.left.quotientParts hQ, h.right.quotientParts hQ', ?_, h.actions, ?_, h.propositions,
    ?_, ?_⟩
  · intro u
    rw [mem_states_quotientParts, mem_states_quotientParts]
    exact hr.exists_iff fun B C hsame => by rw [hname hsame]
  · intro u
    rw [mem_initial_quotientParts, mem_initial_quotientParts]
    refine hr.exists_iff fun B C hsame => ?_
    simp only [hname hsame, hsame, h.initial]
  · intro u hu a _ v
    obtain ⟨B, hB, rfl⟩ := mem_states_quotientParts.mp hu
    obtain ⟨C, hC, hsame⟩ := hr.exists_same hB
    rw [← mem_successorsBy, ← mem_successorsBy, hQ.mem_successorsBy_quotientParts hB, hname hsame,
      hQ'.mem_successorsBy_quotientParts hC]
    -- The block that a step leads to is looked up in either partition.
    have htarget (t : State) :
        (∃ D ∈ Q, t ∈ D ∧ v = .ofMembers D) ↔ ∃ D ∈ Q', t ∈ D ∧ v = .ofMembers D :=
      hr.exists_iff fun D D' hsame' => by rw [hsame', hname hsame']
    simp only [hsame, h.actions, h.mem_successorsBy_iff, htarget]
  · intro u hu
    obtain ⟨B, hB, rfl⟩ := mem_states_quotientParts.mp hu
    obtain ⟨C, hC, hsame⟩ := hr.exists_same hB
    rw [Label.agrees_iff]
    intro p
    rw [hQ.mem_label_quotientParts hB, hname hsame, hQ'.mem_label_quotientParts hC]
    simp only [hsame, h.mem_label_iff]

theorem SetEqual.partitionViolation?_eq_none_iff (h : SetEqual S S') (hr : Q.Rearranges Q') :
    S.partitionViolation? Q = none ↔ S'.partitionViolation? Q' = none := by
  rw [System.partitionViolation?_eq_none_iff, System.partitionViolation?_eq_none_iff,
    h.isPartition_iff hr]

theorem SetEqual.observationViolation?_eq_none_iff (h : SetEqual S S') (hr : Q.Rearranges Q') :
    S.observationViolation? Q = none ↔ S'.observationViolation? Q' = none := by
  rw [System.observationViolation?_eq_none_iff, System.observationViolation?_eq_none_iff,
    h.isPartition_iff hr, h.sameLabels_iff hr]

/-- Either both systems have a quotient, or neither has. -/
theorem SetEqual.quotient (h : SetEqual S S') (hr : Q.Rearranges Q') :
    ((∃ q, S.quotient Q = .ok q) ↔ ∃ q', S'.quotient Q' = .ok q') ∧
      ∀ q q', S.quotient Q = .ok q → S'.quotient Q' = .ok q' → SetEqual q q' := by
  have hexists {R : System} (hR : R.Valid) (P : Partition) :
      (∃ q, R.quotient P = .ok q) ↔ R.IsPartition P :=
    ⟨fun ⟨_, hq⟩ => (of_quotient_eq_ok hq).1,
      fun hP => ⟨_, quotient_eq_ok hP fun s _ => hR.proposition s⟩⟩
  refine ⟨?_, ?_⟩
  · rw [hexists h.left, hexists h.right, h.isPartition_iff hr]
  · intro q q' hq hq'
    obtain ⟨hQ, _, rfl⟩ := of_quotient_eq_ok hq
    obtain ⟨_, _, rfl⟩ := of_quotient_eq_ok hq'
    exact h.quotientParts hr hQ

/-! ## Interleavings -/

theorem SetEqual.interleavingParts (hS : SetEqual S S') (hT : SetEqual T T') :
    SetEqual (S.interleavingParts T) (S'.interleavingParts T') := by
  rw [setEqual_iff]
  simp only [ListSet.isSame_iff]
  refine ⟨hS.left.interleavingParts hT.left, hS.right.interleavingParts hT.right, ?_, ?_, ?_, ?_,
    ?_, ?_⟩
  · intro u
    simp only [mem_states_interleavingParts, hS.states, hT.states]
  · intro a
    simp only [mem_actions_interleavingParts, hS.actions, hT.actions]
  · intro u
    simp only [mem_initial_interleavingParts, hS.initial, hT.initial]
  · intro p
    simp only [System.interleavingParts, List.mem_append, hS.propositions, hT.propositions]
  · intro u hu a _ v
    obtain ⟨s, hs, t, ht, rfl⟩ := mem_states_interleavingParts.mp hu
    rw [← mem_successorsBy, ← mem_successorsBy,
      mem_successorsBy_interleavingParts hS.left hT.left hs ht,
      mem_successorsBy_interleavingParts hS.right hT.right ((hS.states s).mp hs)
        ((hT.states t).mp ht)]
    simp only [hS.mem_successorsBy_iff, hT.mem_successorsBy_iff]
  · intro u hu
    obtain ⟨s, hs, t, ht, rfl⟩ := mem_states_interleavingParts.mp hu
    rw [Label.agrees_iff]
    intro p
    rw [label_interleavingParts hs ht,
      label_interleavingParts ((hS.states s).mp hs) ((hT.states t).mp ht)]
    simp only [List.mem_append, hS.mem_label_iff, hT.mem_label_iff]

/-- **Nothing depends on how the sets of a system are listed.** -/
theorem answers_depend_on_sets (hS : SetEqual S S') (hT : SetEqual T T') :
    SameAnswers S S' ∧
      (∀ Q Q' : Partition, Q.Rearranges Q' →
        (S.partitionViolation? Q = none ↔ S'.partitionViolation? Q' = none) ∧
        (S.observationViolation? Q = none ↔ S'.observationViolation? Q' = none) ∧
        ((∃ q, S.quotient Q = .ok q) ↔ ∃ q', S'.quotient Q' = .ok q') ∧
        ∀ q q', S.quotient Q = .ok q → S'.quotient Q' = .ok q' → SetEqual q q') ∧
      ∃ P P', S.interleave T = .ok P ∧ S'.interleave T' = .ok P' ∧ SetEqual P P' := by
  refine ⟨hS.sameAnswers, ?_, ?_⟩
  · intro Q Q' hr
    exact ⟨hS.partitionViolation?_eq_none_iff hr, hS.observationViolation?_eq_none_iff hr,
      hS.quotient hr⟩
  · exact ⟨_, _, interleave_eq_ok hS.left hT.left, interleave_eq_ok hS.right hT.right,
      hS.interleavingParts hT⟩

/-- The chain with its lists in other orders, with repeats and with an empty list of targets. -/
def untidyChain : System :=
  .ofEntries (State.ofNames ["3", "1", "2", "1"]) [⟨"a"⟩, ⟨"a"⟩]
    [(.named "2", [(⟨"a"⟩, State.ofNames ["3", "1", "2", "2"])]),
      (.named "1", [(⟨"a"⟩, State.ofNames ["2", "1"])]),
      (.named "3", [(⟨"a"⟩, [])])]
    (State.ofNames ["1", "1"])
    (Label.ofNames ["C", "A", "B"])
    [(.named "3", Label.ofNames ["C", "B", "C"]), (.named "1", Label.ofNames ["A"]),
      (.named "2", Label.ofNames ["B"])]

theorem answers_depend_on_sets_untidyChain :
    SetEqual Catalogue.simpleChain untidyChain ∧
      Partition.Rearranges [State.ofNames ["1", "2"], State.ofNames ["3"]]
        [State.ofNames ["3", "3"], State.ofNames ["2", "1"]] ∧
      SameAnswers Catalogue.simpleChain untidyChain ∧
      (∃ q q',
        Catalogue.simpleChain.quotient [State.ofNames ["1", "2"], State.ofNames ["3"]] = .ok q ∧
        untidyChain.quotient [State.ofNames ["3", "3"], State.ofNames ["2", "1"]] = .ok q' ∧
        SetEqual q q') ∧
      ∃ P P', Catalogue.simpleChain.interleave untidyChain = .ok P ∧
        untidyChain.interleave Catalogue.simpleChain = .ok P' ∧ SetEqual P P' := by
  have h : SetEqual Catalogue.simpleChain untidyChain := by decide
  have hr : Partition.Rearranges [State.ofNames ["1", "2"], State.ofNames ["3"]]
      [State.ofNames ["3", "3"], State.ofNames ["2", "1"]] :=
    ⟨[State.ofNames ["3"], State.ofNames ["1", "2"]], .swap _ _ _,
      .cons (by decide) (.cons (by decide) .nil)⟩
  obtain ⟨hanswers, hpartitions, hproduct⟩ := answers_depend_on_sets h h.symm
  obtain ⟨_, _, hexists, hquotients⟩ := hpartitions _ _ hr
  have hQ : Catalogue.simpleChain.IsPartition [State.ofNames ["1", "2"], State.ofNames ["3"]] :=
    System.partitionViolation?_eq_none_iff.mp (by decide)
  have hq := quotient_eq_ok hQ fun s _ => Catalogue.simpleChain_valid.proposition s
  obtain ⟨q', hq'⟩ := hexists.mp ⟨_, hq⟩
  exact ⟨h, hr, hanswers, ⟨_, q', hq, hq', hquotients _ _ hq hq'⟩, hproduct⟩

end System
end TransitionSystems
