import TransitionSystems.Partition
import TransitionSystems.System.Validity

/-!
Quotients. The states of a quotient are the blocks of a partition. A block can take an action to
another block if some state of the one can take it to some state of the other; it is initial if one
of its states is; and it has the propositions of all its states.
-/
namespace TransitionSystems.System

/-- The blocks to which `a` leads from the states of `B`. Targets in no block are passed over. -/
def blockSuccessors (S : System) (Q : Partition) (B : List State) (a : Action) : List State :=
  (B.flatMap fun s => (S.successorsBy s a).filterMap Q.blockOf?).eraseDups

/-- What the quotient is before it is known to be valid. -/
def quotientParts (S : System) (Q : Partition) : System where
  states := Q.map .ofMembers
  actions := S.actions
  moves := .ofCells (Q.map fun B => (.ofMembers B, B)) S.actions (S.blockSuccessors Q)
  initial := (Q.filter (·.any S.isInitial)).map .ofMembers
  propositions := S.propositions
  labels := .ofList (Q.map fun B => (.ofMembers B, ListSet.union (B.map S.label))) compare

def quotient (S : System) (Q : Partition) : Except Violation System :=
  match S.partitionViolation? Q with
  | none => (S.quotientParts Q).validate
  | some v => .error v

theorem IsPartition.exists_mem {S : System} {Q : Partition} (hQ : S.IsPartition Q) {B : List State}
    (hB : B ∈ Q) : ∃ s, s ∈ B :=
  List.exists_mem_of_ne_nil B (hQ.nonempty B hB)

/-- Two blocks of a partition that share a state are one block. -/
theorem IsPartition.eq_of_mem {S : System} {Q : Partition} (hQ : S.IsPartition Q) {B C : List State}
    (hB : B ∈ Q) (hC : C ∈ Q) {s : State} (hsB : s ∈ B) (hsC : s ∈ C) : B = C := by
  obtain ⟨i, hi⟩ := List.mem_iff_getElem?.1 hB
  obtain ⟨j, hj⟩ := List.mem_iff_getElem?.1 hC
  rw [hQ.place_unique hi hj hsB hsC, hj] at hi
  exact (Option.some.inj hi).symm

/-- No two blocks of a partition stand for the same state of the quotient. -/
theorem IsPartition.eq_of_ofMembers_eq {S : System} {Q : Partition} (hQ : S.IsPartition Q)
    {B C : List State} (hB : B ∈ Q) (hC : C ∈ Q) (h : State.ofMembers B = .ofMembers C) :
    B = C := by
  obtain ⟨s, hs⟩ := hQ.exists_mem hB
  exact hQ.eq_of_mem hB hC hs ((State.ofMembers_eq_iff.1 h s).1 hs)

theorem targets_quotientParts {S : System} {Q : Partition} (hQ : S.IsPartition Q) {B : List State}
    (hB : B ∈ Q) (a : Action) :
    (S.quotientParts Q).targets (.ofMembers B) a =
      if a ∈ S.actions then S.blockSuccessors Q B a else [] := by
  have hkey : (State.ofMembers B, B) ∈ Q.map fun B => (State.ofMembers B, B) :=
    List.mem_map.2 ⟨B, hB, rfl⟩
  rw [targets, quotientParts, Grid.at?_ofCells_of_mem hkey]
  intro C hC
  obtain ⟨C', hC', h⟩ := List.mem_map.1 hC
  obtain ⟨hblock, rfl⟩ := Prod.mk.inj h
  rw [hQ.eq_of_ofMembers_eq hC' hB hblock]

end TransitionSystems.System
