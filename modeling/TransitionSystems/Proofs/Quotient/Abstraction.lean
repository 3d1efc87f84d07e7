import TransitionSystems.Proofs.Quotient.Steps

/-!
Quotients as abstractions. Whatever the system, valid or not, and whatever the partition, a quotient
that exists is just what is seen of the system if states of one block are not told apart
(`quotient_abstracts`): no step, initial block or proposition is missing, and none is there without
a state that gives rise to it.
-/
namespace TransitionSystems.System

/-- The states of `q` are the blocks of `Q`, and each block does what some of its states do. -/
structure Abstracts (q S : System) (Q : Partition) : Prop where
  states : q.states = Q.map .ofMembers
  distinct : q.states.Nodup
  length : q.states.length = Q.length
  step : ∀ B ∈ Q, ∀ C ∈ Q, ∀ a,
    State.ofMembers C ∈ q.successorsBy (.ofMembers B) a ↔
      a ∈ S.actions ∧ ∃ s ∈ B, ∃ t ∈ C, t ∈ S.successorsBy s a
  initial : ∀ B ∈ Q, q.isInitial (.ofMembers B) = true ↔ ∃ s ∈ B, S.isInitial s = true
  plainLabel : ∀ B ∈ Q, (q.label (.ofMembers B)).Nodup
  label : ∀ B ∈ Q, ∀ p, p ∈ q.label (.ofMembers B) ↔ ∃ s ∈ B, p ∈ S.label s
  commonLabel : S.observationViolation? Q = none →
    ∀ B ∈ Q, ∀ s ∈ B, (q.label (.ofMembers B)).agrees (S.label s) = true

variable {S q : System} {Q : Partition} {B : List State} {s : State}

/-- Different blocks of a partition stand for different states. -/
theorem IsPartition.nodup_states_quotientParts (hQ : S.IsPartition Q) :
    (S.quotientParts Q).states.Nodup := by
  rw [quotientParts, List.Nodup, List.pairwise_map]
  refine hQ.disjoint.imp_of_mem ?_
  intro B C hB _ hdisjoint heq
  obtain ⟨s, hs⟩ := hQ.exists_mem hB
  exact hdisjoint s hs ((State.ofMembers_eq_iff.mp heq s).mp hs)

theorem IsPartition.isInitial_quotientParts (hQ : S.IsPartition Q) (hB : B ∈ Q) :
    (S.quotientParts Q).isInitial (.ofMembers B) = true ↔ ∃ s ∈ B, S.isInitial s = true := by
  simp only [isInitial, decide_eq_true_eq, mem_initial_quotientParts]
  constructor
  · rintro ⟨C, hC, hinit, heq⟩
    rw [hQ.eq_of_ofMembers_eq hB hC heq]
    exact hinit
  · intro hinit
    exact ⟨B, hB, hinit, rfl⟩

theorem IsPartition.nodup_label_quotientParts (hQ : S.IsPartition Q) (hB : B ∈ Q) :
    ((S.quotientParts Q).label (.ofMembers B)).Nodup := by
  rw [hQ.label_quotientParts hB]
  exact ListSet.nodup_union _

/-- If the states of a block look alike, the block looks like each of them. -/
theorem IsPartition.agrees_label_quotientParts (hQ : S.IsPartition Q) (hsame : S.SameLabels Q)
    (hB : B ∈ Q) (hs : s ∈ B) :
    ((S.quotientParts Q).label (.ofMembers B)).agrees (S.label s) = true := by
  rw [Label.agrees_iff]
  intro p
  rw [hQ.mem_label_quotientParts hB]
  constructor
  · rintro ⟨t, ht, hp⟩
    exact (Label.agrees_iff.mp (hsame B hB t ht s hs) p).mp hp
  · intro hp
    exact ⟨s, hs, hp⟩

theorem IsPartition.abstracts_quotientParts (hQ : S.IsPartition Q) :
    (S.quotientParts Q).Abstracts S Q where
  states := rfl
  distinct := hQ.nodup_states_quotientParts
  length := List.length_map _
  step := fun _ hB _ hC _ => hQ.block_mem_successorsBy_iff hB hC
  initial := fun _ hB => hQ.isInitial_quotientParts hB
  plainLabel := fun _ hB => hQ.nodup_label_quotientParts hB
  label := fun _ hB _ => hQ.mem_label_quotientParts hB
  commonLabel := fun h _ hB _ hs =>
    hQ.agrees_label_quotientParts (observationViolation?_eq_none_iff.mp h).2 hB hs

/-- **A quotient is the existential abstraction of its system.** -/
theorem quotient_abstracts (h : S.quotient Q = .ok q) : q.Abstracts S Q := by
  obtain ⟨hQ, _, rfl⟩ := of_quotient_eq_ok h
  exact hQ.abstracts_quotientParts

/-- It starts and moves outside its states, and one of its moves is by an action that it does not
declare. -/
def looseEnds : System :=
  .ofEntries (State.ofNames ["1", "2", "3"]) [⟨"a"⟩]
    [(.named "1", [(⟨"a"⟩, State.ofNames ["2", "9"]), (⟨"b"⟩, State.ofNames ["3"])]),
      (.named "9", [(⟨"a"⟩, State.ofNames ["1"])])]
    (State.ofNames ["9", "3"]) (Label.ofNames ["p", "q"])
    [(.named "1", Label.ofNames ["p"]), (.named "2", Label.ofNames ["p", "p"]),
      (.named "3", Label.ofNames ["q"])]

/-- One of the blocks lists a state twice. -/
def looseBlocks : Partition := [State.ofNames ["1", "2", "1"], State.ofNames ["3"]]

/-- A state of the first block steps to a state of it, but to the other block only by an action that
is not declared. -/
theorem quotient_abstracts_looseEnds :
    ¬looseEnds.Valid ∧ looseEnds.observationViolation? looseBlocks = none ∧
      ∃ q, looseEnds.quotient looseBlocks = .ok q ∧
        .ofMembers (State.ofNames ["1", "2"]) ∈
          q.successorsBy (.ofMembers (State.ofNames ["1", "2", "1"])) ⟨"a"⟩ ∧
        .ofMembers (State.ofNames ["3"]) ∉
          q.successorsBy (.ofMembers (State.ofNames ["1", "2", "1"])) ⟨"b"⟩ ∧
        q.isInitial (.ofMembers (State.ofNames ["1", "2", "1"])) = false ∧
        (q.label (.ofMembers (State.ofNames ["1", "2", "1"]))).agrees (Label.ofNames ["p"]) =
          true := by
  have hQ : looseEnds.IsPartition looseBlocks :=
    partitionViolation?_eq_none_iff.mp (by decide)
  have hsame : looseEnds.observationViolation? looseBlocks = none := by decide
  have hok := quotient_eq_ok hQ (by decide)
  have habstracts := quotient_abstracts hok
  refine ⟨by decide, hsame, _, hok, ?_, ?_, ?_, ?_⟩
  · exact (habstracts.step (State.ofNames ["1", "2", "1"]) (by decide)
      (State.ofNames ["1", "2", "1"]) (by decide) ⟨"a"⟩).mpr (by decide)
  · rw [habstracts.step _ (by decide) _ (by decide)]
    decide
  · rw [Bool.eq_false_iff, ne_eq, habstracts.initial _ (by decide)]
    decide
  · exact habstracts.commonLabel hsame _ (by decide) (.named "1") (by decide)

end TransitionSystems.System
