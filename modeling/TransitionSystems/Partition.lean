import TransitionSystems.System.Basic

/-!
Partitions of the states of a system into blocks. A block may list a state repeatedly. Violations
are looked for in this order: empty blocks; undeclared states in blocks; declared states outside all
blocks; states that two blocks share; and then, where all states of a block have to look alike,
labels that differ from that of the first state of the block. The main statements say which lists of
blocks pass.
-/
namespace TransitionSystems

abbrev Partition := List (List State)

namespace Partition

def emptyBlock? (Q : Partition) : Option Violation :=
  (Q.findIdx? List.isEmpty).map .emptyBlock

/-- The first of the blocks `Cs`, which are counted from `j`, that shares a state with `B`. -/
def sharedWith? (B : List State) : Nat → Partition → Option (Nat × State)
  | _, [] => none
  | j, C :: Cs => ((ListSet.common B C).head?.map fun s => (j, s)).or (sharedWith? B (j + 1) Cs)

/-- The first two blocks that share a state; blocks are counted from `i`. -/
def overlapFrom? : Nat → Partition → Option Violation
  | _, [] => none
  | i, B :: Bs =>
    ((sharedWith? B (i + 1) Bs).map fun hit => .overlappingBlocks i hit.1 hit.2).or
      (overlapFrom? (i + 1) Bs)

def overlap? (Q : Partition) : Option Violation := overlapFrom? 0 Q

/-- The state that stands for the block of `s`. -/
def blockOf? (Q : Partition) (s : State) : Option State := (Q.find? (s ∈ ·)).map .ofMembers

theorem emptyBlock?_eq_none_iff {Q : Partition} : Q.emptyBlock? = none ↔ ∀ B ∈ Q, B ≠ [] := by
  simp [emptyBlock?]

theorem sharedWith?_eq_none_iff {B : List State} {j : Nat} {Cs : Partition} :
    sharedWith? B j Cs = none ↔ ∀ C ∈ Cs, ∀ s ∈ B, s ∉ C := by
  induction Cs generalizing j with
  | nil => simp [sharedWith?]
  | cons C Cs ih => simp [sharedWith?, ih, ListSet.common]

theorem overlapFrom?_eq_none_iff {i : Nat} {Q : Partition} :
    overlapFrom? i Q = none ↔ Q.Pairwise fun B C => ∀ s ∈ B, s ∉ C := by
  induction Q generalizing i with
  | nil => simp [overlapFrom?]
  | cons B Bs ih => simp [overlapFrom?, ih, sharedWith?_eq_none_iff]

end Partition

namespace System

def foreignState? (S : System) (Q : Partition) : Option Violation :=
  Q.zipIdx.findSome? fun (B, i) => (B.find? (· ∉ S.states)).map (.foreignState i)

def uncoveredState? (S : System) (Q : Partition) : Option Violation :=
  (S.states.find? fun s => Q.all (s ∉ ·)).map .uncoveredState

def partitionViolation? (S : System) (Q : Partition) : Option Violation :=
  Q.emptyBlock?.or ((S.foreignState? Q).or ((S.uncoveredState? Q).or Q.overlap?))

/-- The first block with a state whose label does not agree with that of the block's first state. -/
def mixedBlock? (S : System) (Q : Partition) : Option Violation :=
  Q.zipIdx.findSome? fun
    | ([], _) => none
    | (s :: ss, i) =>
      (ss.find? fun t => !(S.label s).agrees (S.label t)).map (.mixedLabels i s)

def observationViolation? (S : System) (Q : Partition) : Option Violation :=
  (S.partitionViolation? Q).or (S.mixedBlock? Q)

/-- The blocks are not empty, hold the declared states and no others, and share no state. -/
structure IsPartition (S : System) (Q : Partition) : Prop where
  nonempty : ∀ B ∈ Q, B ≠ []
  declared : ∀ B ∈ Q, ∀ s ∈ B, s ∈ S.states
  covered : ∀ s ∈ S.states, ∃ B ∈ Q, s ∈ B
  disjoint : Q.Pairwise fun B C => ∀ s ∈ B, s ∉ C

/-- States of one block have labels that agree. -/
def SameLabels (S : System) (Q : Partition) : Prop :=
  ∀ B ∈ Q, ∀ s ∈ B, ∀ t ∈ B, (S.label s).agrees (S.label t)

theorem foreignState?_eq_none_iff {S : System} {Q : Partition} :
    S.foreignState? Q = none ↔ ∀ B ∈ Q, ∀ s ∈ B, s ∈ S.states := by
  refine ListSet.findSome?_zipIdx_eq_none_iff fun B i => ?_
  simp

theorem uncoveredState?_eq_none_iff {S : System} {Q : Partition} :
    S.uncoveredState? Q = none ↔ ∀ s ∈ S.states, ∃ B ∈ Q, s ∈ B := by
  simp [uncoveredState?]

theorem partitionViolation?_eq_none_iff {S : System} {Q : Partition} :
    S.partitionViolation? Q = none ↔ S.IsPartition Q := by
  simp only [partitionViolation?, Option.or_eq_none_iff, Partition.emptyBlock?_eq_none_iff,
    foreignState?_eq_none_iff, uncoveredState?_eq_none_iff, Partition.overlap?,
    Partition.overlapFrom?_eq_none_iff]
  exact ⟨fun ⟨h₁, h₂, h₃, h₄⟩ => ⟨h₁, h₂, h₃, h₄⟩, fun ⟨h₁, h₂, h₃, h₄⟩ => ⟨h₁, h₂, h₃, h₄⟩⟩

/-- A state of a partition has one place. -/
theorem IsPartition.place_unique {S : System} {Q : Partition} (hQ : S.IsPartition Q) {i j : Nat}
    {B C : List State} (hB : Q[i]? = some B) (hC : Q[j]? = some C) {s : State} (hsB : s ∈ B)
    (hsC : s ∈ C) : i = j := by
  obtain ⟨hi, rfl⟩ := List.getElem?_eq_some_iff.1 hB
  obtain ⟨hj, rfl⟩ := List.getElem?_eq_some_iff.1 hC
  have hdisjoint := List.pairwise_iff_getElem.1 hQ.disjoint
  rcases Nat.lt_trichotomy i j with h | h | h
  · exact absurd hsC (hdisjoint i j hi hj h s hsB)
  · exact h
  · exact absurd hsB (hdisjoint j i hj hi h s hsC)

/-- It is enough to compare all labels of a block with that of its first state. -/
theorem agrees_of_agrees_first {S : System} {s : State} {ss : List State}
    (h : ∀ t ∈ ss, (S.label s).agrees (S.label t) = true) :
    ∀ t ∈ s :: ss, ∀ u ∈ s :: ss, (S.label t).agrees (S.label u) = true := by
  have same (t : State) (ht : t ∈ s :: ss) : ∀ p, p ∈ S.label s ↔ p ∈ S.label t := by
    rcases List.mem_cons.1 ht with rfl | ht
    · exact fun _ => Iff.rfl
    · exact Label.agrees_iff.1 (h t ht)
  intro t ht u hu
  exact Label.agrees_iff.2 fun p => (same t ht p).symm.trans (same u hu p)

theorem mixedBlock?_eq_none_iff {S : System} {Q : Partition} :
    S.mixedBlock? Q = none ↔ S.SameLabels Q := by
  refine ListSet.findSome?_zipIdx_eq_none_iff fun B i => ?_
  cases B with
  | nil => simp
  | cons u us =>
    simp only [Option.map_eq_none_iff, List.find?_eq_none, Bool.not_eq_true', Bool.not_eq_false]
    constructor
    · exact agrees_of_agrees_first
    · intro h t ht
      exact h u List.mem_cons_self t (List.mem_cons_of_mem u ht)

theorem observationViolation?_eq_none_iff {S : System} {Q : Partition} :
    S.observationViolation? Q = none ↔ S.IsPartition Q ∧ S.SameLabels Q := by
  simp only [observationViolation?, Option.or_eq_none_iff, partitionViolation?_eq_none_iff,
    mixedBlock?_eq_none_iff]

end System
end TransitionSystems
