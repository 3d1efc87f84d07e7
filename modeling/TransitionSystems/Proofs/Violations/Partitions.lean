import TransitionSystems.Catalogue
import TransitionSystems.Partition
import TransitionSystems.Proofs.Violations.FirstHits

/-!
What is reported of lists of blocks. A list that is no partition is reported for the first rule that
it breaks, at the first place where it does; in a partition, each declared state has its place in
one block only (`partition_outcomes`).
-/
namespace TransitionSystems

variable {S : System} {Q : Partition} {v : Violation} {B : List State} {s : State}

namespace Partition

/-- The blocks at the places `i < j` share a state. -/
def Overlap (Q : Partition) (i j : Nat) : Prop :=
  i < j ∧ ∃ B C, Q[i]? = some B ∧ Q[j]? = some C ∧ ∃ s ∈ B, s ∈ C

/-- Of all places of two blocks that share a state, `i` and `j` are the lexicographically least, and
`s` is the first state of the one block that is in the other. -/
structure FirstOverlap (Q : Partition) (i j : Nat) (s : State) : Prop where
  lt : i < j
  shared : ∃ B C, Q[i]? = some B ∧ Q[j]? = some C ∧ First (· ∈ C) B s
  least : ∀ m n, Q.Overlap m n → i < m ∨ i = m ∧ j ≤ n

/-! ## Overlapping blocks -/

theorem overlap_cons_zero_iff {j : Nat} :
    Overlap (B :: Q) 0 (j + 1) ↔ ∃ C, Q[j]? = some C ∧ ∃ s ∈ B, s ∈ C := by
  simp [Overlap]

theorem overlap_cons_succ_iff {i j : Nat} :
    Overlap (B :: Q) (i + 1) (j + 1) ↔ Q.Overlap i j := by
  simp [Overlap]

theorem firstOverlap_cons_zero_iff {j : Nat} : FirstOverlap (B :: Q) 0 (j + 1) s ↔
    ∃ C, FirstAt (fun C => ∃ t ∈ B, t ∈ C) Q j C ∧ First (· ∈ C) B s := by
  constructor
  · rintro ⟨_, ⟨_, C, ⟨⟩, hC, i, hs⟩, hleast⟩
    refine ⟨C, ⟨by simpa using hC, ⟨s, hs.mem, hs.holds⟩, ?_⟩, i, hs⟩
    intro n hn D hD hshared
    have := hleast 0 (n + 1) (overlap_cons_zero_iff.mpr ⟨D, hD, hshared⟩)
    omega
  · rintro ⟨C, hC, hs⟩
    refine ⟨Nat.succ_pos j, ⟨B, C, rfl, by simpa using hC.here, hs⟩, ?_⟩
    rintro (_ | m) (_ | n) hmn
    · exact absurd hmn.1 (Nat.lt_irrefl 0)
    · obtain ⟨D, hD, hshared⟩ := overlap_cons_zero_iff.mp hmn
      have hjn : ¬n < j := fun hn => hC.before n hn D hD hshared
      omega
    · exact absurd hmn.1 (Nat.not_lt_zero _)
    · exact .inl (Nat.succ_pos m)

theorem firstOverlap_cons_succ_iff {i j : Nat} : FirstOverlap (B :: Q) (i + 1) (j + 1) s ↔
    (∀ C ∈ Q, ∀ t ∈ B, t ∉ C) ∧ Q.FirstOverlap i j s := by
  constructor
  · rintro ⟨hlt, ⟨C, D, hC, hD, hs⟩, hleast⟩
    refine ⟨?_, by omega, ⟨C, D, by simpa using hC, by simpa using hD, hs⟩, ?_⟩
    · intro E hE t ht htE
      obtain ⟨n, hn⟩ := List.mem_iff_getElem?.mp hE
      have := hleast 0 (n + 1) (overlap_cons_zero_iff.mpr ⟨E, hn, t, ht, htE⟩)
      omega
    · intro m n hmn
      have := hleast (m + 1) (n + 1) (overlap_cons_succ_iff.mpr hmn)
      omega
  · rintro ⟨hapart, hlt, ⟨C, D, hC, hD, hs⟩, hleast⟩
    refine ⟨by omega, ⟨C, D, by simpa using hC, by simpa using hD, hs⟩, ?_⟩
    rintro (_ | m) (_ | n) hmn
    · exact absurd hmn.1 (Nat.lt_irrefl 0)
    · obtain ⟨E, hE, t, ht, htE⟩ := overlap_cons_zero_iff.mp hmn
      exact absurd htE (hapart E (List.mem_of_getElem? hE) t ht)
    · exact absurd hmn.1 (Nat.not_lt_zero _)
    · have := hleast m n (overlap_cons_succ_iff.mp hmn)
      omega

theorem head?_common_eq_some_iff {C : List State} :
    (ListSet.common B C).head? = some s ↔ First (· ∈ C) B s := by
  rw [ListSet.common, List.head?_filter]
  exact find?_eq_some_iff_first fun t => decide_eq_true_iff

theorem sharedWith?_eq_findSome? {k : Nat} : sharedWith? B k Q =
    (Q.zipIdx k).findSome? fun entry =>
      (ListSet.common B entry.1).head?.map fun s => (entry.2, s) := by
  induction Q generalizing k with
  | nil => rfl
  | cons C Q ih =>
    rw [sharedWith?, ih, List.zipIdx_cons, List.findSome?_cons]
    cases (ListSet.common B C).head? with
    | none => rfl
    | some s => rfl

theorem sharedWith?_eq_some_iff {k n : Nat} : sharedWith? B k Q = some (n, s) ↔
    ∃ j C, n = k + j ∧ FirstAt (fun C => ∃ t ∈ B, t ∈ C) Q j C ∧ First (· ∈ C) B s := by
  rw [sharedWith?_eq_findSome?, findSome?_zipIdx_eq_some_iff (p := fun C => ∃ t ∈ B, t ∈ C)]
  · simp only [Option.map_eq_some_iff, head?_common_eq_some_iff, Prod.mk.injEq]
    constructor
    · rintro ⟨j, C, hC, _, hs, rfl, rfl⟩
      exact ⟨j, C, rfl, hC, hs⟩
    · rintro ⟨j, C, rfl, hC, hs⟩
      exact ⟨j, C, hC, s, hs, rfl, rfl⟩
  · intro C j
    simp [ListSet.common]

/-- The search goes from block to block; the places that it reports count from `k`. -/
theorem overlapFrom?_eq_some_iff {k : Nat} : overlapFrom? k Q = some v ↔
    ∃ i j s, v = .overlappingBlocks (k + i) (k + j) s ∧ Q.FirstOverlap i j s := by
  induction Q generalizing k with
  | nil =>
    simp only [overlapFrom?, reduceCtorEq, false_iff]
    rintro ⟨i, j, s, _, _, ⟨B, _, hB, _⟩, _⟩
    simp at hB
  | cons B Q ih =>
    simp only [overlapFrom?, Option.or_eq_some_iff, Option.map_eq_some_iff, Option.map_eq_none_iff,
      Prod.exists, sharedWith?_eq_none_iff, ih]
    -- places in `Q` are one less than the places of the same blocks in `B :: Q`
    have hplace (j : Nat) : k + 1 + j = k + (j + 1) := by omega
    constructor
    · rintro (⟨n, s, hshared, rfl⟩ | ⟨hapart, i, j, s, rfl, h⟩)
      · obtain ⟨j, C, rfl, hC, hs⟩ := sharedWith?_eq_some_iff.mp hshared
        refine ⟨0, j + 1, s, ?_, firstOverlap_cons_zero_iff.mpr ⟨C, hC, hs⟩⟩
        rw [hplace, Nat.add_zero k]
      · refine ⟨i + 1, j + 1, s, ?_, firstOverlap_cons_succ_iff.mpr ⟨hapart, h⟩⟩
        rw [hplace, hplace]
    · rintro ⟨_ | i, _ | j, s, rfl, h⟩
      · exact absurd h.lt (Nat.lt_irrefl 0)
      · obtain ⟨C, hC, hs⟩ := firstOverlap_cons_zero_iff.mp h
        refine .inl ⟨k + 1 + j, s, sharedWith?_eq_some_iff.mpr ⟨j, C, rfl, hC, hs⟩, ?_⟩
        rw [hplace, Nat.add_zero k]
      · exact absurd h.lt (Nat.not_lt_zero _)
      · obtain ⟨hapart, h⟩ := firstOverlap_cons_succ_iff.mp h
        refine .inr ⟨hapart, i, j, s, ?_, h⟩
        rw [hplace, hplace]

theorem overlap?_eq_some_iff : Q.overlap? = some v ↔
    ∃ i j s, v = .overlappingBlocks i j s ∧ Q.FirstOverlap i j s := by
  simp only [overlap?, overlapFrom?_eq_some_iff, Nat.zero_add]

theorem emptyBlock?_eq_some_iff : Q.emptyBlock? = some v ↔
    ∃ i, v = .emptyBlock i ∧ FirstAt (· = []) Q i [] := by
  simp only [emptyBlock?, Option.map_eq_some_iff,
    findIdx?_eq_some_iff_firstAt fun B : List State => List.isEmpty_iff]
  constructor
  · rintro ⟨i, ⟨B, h⟩, rfl⟩
    exact ⟨i, rfl, h.holds ▸ h⟩
  · rintro ⟨i, rfl, h⟩
    exact ⟨i, ⟨[], h⟩, rfl⟩

end Partition

namespace System

/-- What is wrong with `Q` first. Each rule is looked at only if those before it hold. -/
inductive FirstPartitionViolation (S : System) (Q : Partition) : Violation → Prop
  | emptyBlock {i : Nat} (hempty : FirstAt (· = []) Q i []) :
      S.FirstPartitionViolation Q (.emptyBlock i)
  | foreignState {i : Nat} {B : List State} {s : State} (hnonempty : ∀ B ∈ Q, B ≠ [])
      (hblock : FirstAt (fun B => ∃ t ∈ B, t ∉ S.states) Q i B)
      (hstate : First (· ∉ S.states) B s) : S.FirstPartitionViolation Q (.foreignState i s)
  | uncoveredState {s : State} (hnonempty : ∀ B ∈ Q, B ≠ [])
      (hdeclared : ∀ B ∈ Q, ∀ t ∈ B, t ∈ S.states)
      (hstate : First (fun t => ∀ B ∈ Q, t ∉ B) S.states s) :
      S.FirstPartitionViolation Q (.uncoveredState s)
  | overlappingBlocks {i j : Nat} {s : State} (hnonempty : ∀ B ∈ Q, B ≠ [])
      (hdeclared : ∀ B ∈ Q, ∀ t ∈ B, t ∈ S.states)
      (hcovered : ∀ t ∈ S.states, ∃ B ∈ Q, t ∈ B) (hoverlap : Q.FirstOverlap i j s) :
      S.FirstPartitionViolation Q (.overlappingBlocks i j s)

theorem foreignState?_eq_some_iff : S.foreignState? Q = some v ↔
    ∃ i B s, v = .foreignState i s ∧ FirstAt (fun B => ∃ t ∈ B, t ∉ S.states) Q i B ∧
      First (· ∉ S.states) B s := by
  rw [foreignState?, findSome?_zipIdx_eq_some_iff (p := fun B => ∃ t ∈ B, t ∉ S.states)]
  · simp only [map_find?_undeclared_eq_some_iff, Nat.zero_add]
    constructor
    · rintro ⟨i, B, hB, s, rfl, hs⟩
      exact ⟨i, B, s, rfl, hB, hs⟩
    · rintro ⟨i, B, s, rfl, hB, hs⟩
      exact ⟨i, B, hB, s, rfl, hs⟩
  · intro B i
    simp

theorem uncoveredState?_eq_some_iff : S.uncoveredState? Q = some v ↔
    ∃ s, v = .uncoveredState s ∧ First (fun t => ∀ B ∈ Q, t ∉ B) S.states s :=
  map_find?_eq_some_iff_first fun t => by simp

theorem partitionViolation?_eq_some_iff :
    S.partitionViolation? Q = some v ↔ S.FirstPartitionViolation Q v := by
  simp only [partitionViolation?, Option.or_eq_some_iff, Partition.emptyBlock?_eq_some_iff,
    Partition.emptyBlock?_eq_none_iff, foreignState?_eq_some_iff, foreignState?_eq_none_iff,
    uncoveredState?_eq_some_iff, uncoveredState?_eq_none_iff, Partition.overlap?_eq_some_iff]
  constructor
  · rintro (⟨i, rfl, hempty⟩ | ⟨hnonempty, h⟩)
    · exact .emptyBlock hempty
    rcases h with ⟨i, B, s, rfl, hblock, hstate⟩ | ⟨hdeclared, h⟩
    · exact .foreignState hnonempty hblock hstate
    rcases h with ⟨s, rfl, hstate⟩ | ⟨hcovered, i, j, s, rfl, hoverlap⟩
    · exact .uncoveredState hnonempty hdeclared hstate
    · exact .overlappingBlocks hnonempty hdeclared hcovered hoverlap
  · intro h
    cases h with
    | emptyBlock hempty => exact .inl ⟨_, rfl, hempty⟩
    | foreignState hnonempty hblock hstate =>
      exact .inr ⟨hnonempty, .inl ⟨_, _, _, rfl, hblock, hstate⟩⟩
    | uncoveredState hnonempty hdeclared hstate =>
      exact .inr ⟨hnonempty, .inr ⟨hdeclared, .inl ⟨_, rfl, hstate⟩⟩⟩
    | overlappingBlocks hnonempty hdeclared hcovered hoverlap =>
      exact .inr ⟨hnonempty, .inr ⟨hdeclared, .inr ⟨hcovered, _, _, _, rfl, hoverlap⟩⟩⟩

/-- **Which lists of blocks are partitions, and what is reported of the others.** -/
theorem partition_outcomes (S : System) (Q : Partition) :
    (S.partitionViolation? Q = none ↔ S.IsPartition Q) ∧
    (∀ v, S.partitionViolation? Q = some v ↔ S.FirstPartitionViolation Q v) ∧
    (S.partitionViolation? Q = none → ∀ s ∈ S.states,
      ∃ (i : Nat) (B : List State), Q[i]? = some B ∧ s ∈ B ∧
        ∀ (j : Nat) (C : List State), Q[j]? = some C → s ∈ C → j = i) := by
  refine ⟨partitionViolation?_eq_none_iff, fun v => partitionViolation?_eq_some_iff, ?_⟩
  intro hnone s hs
  have hQ := partitionViolation?_eq_none_iff.mp hnone
  obtain ⟨B, hB, hsB⟩ := hQ.covered s hs
  obtain ⟨i, hi⟩ := List.mem_iff_getElem?.mp hB
  exact ⟨i, B, hi, hsB, fun j C hC hsC => hQ.place_unique hC hi hsC hsB⟩

/-- One block lists a state twice. -/
def repeatedChain : Partition := [State.ofNames ["2", "1", "2"], State.ofNames ["3"]]

/-- Three pairs of blocks overlap. -/
def knottedChain : Partition :=
  [State.ofNames ["2", "1"], State.ofNames ["3"], State.ofNames ["1", "2"], State.ofNames ["3"]]

theorem partition_outcomes_chain :
    Catalogue.simpleChain.partitionViolation? repeatedChain = none ∧
      (∃ (i : Nat) (B : List State), repeatedChain[i]? = some B ∧ .named "2" ∈ B ∧
        ∀ (j : Nat) (C : List State), repeatedChain[j]? = some C → .named "2" ∈ C → j = i) ∧
      Catalogue.simpleChain.FirstPartitionViolation knottedChain
        (.overlappingBlocks 0 2 (.named "2")) := by
  have hnone : Catalogue.simpleChain.partitionViolation? repeatedChain = none := by decide
  obtain ⟨_, hreported, _⟩ := partition_outcomes Catalogue.simpleChain knottedChain
  obtain ⟨_, _, hplaces⟩ := partition_outcomes Catalogue.simpleChain repeatedChain
  exact ⟨hnone, hplaces hnone (.named "2") (by decide), (hreported _).mp (by decide)⟩

end System
end TransitionSystems
