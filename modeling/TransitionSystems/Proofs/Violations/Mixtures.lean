import TransitionSystems.Proofs.Violations.Partitions

/-!
What is reported of partitions whose blocks have to look alike inside. It is the first block that
does not, with its first state and the first of its states that looks different. Blocks are compared
by reading states off at their places, and every place that is read exists (`observation_outcomes`).
-/
namespace TransitionSystems

/-- A list was read at a place that it does not have. -/
structure OutOfBounds where
  place : Nat
  length : Nat
deriving DecidableEq

/-- The state at place `i`. -/
def readAt (B : List State) (i : Nat) : Except OutOfBounds State :=
  match B[i]? with
  | some s => .ok s
  | none => .error ⟨i, B.length⟩

/-- The states from place `i` on. The place after the last state is one to start from. -/
def readFrom (B : List State) (i : Nat) : Except OutOfBounds (List State) :=
  if i ≤ B.length then .ok (B.drop i) else .error ⟨i, B.length⟩

namespace System

variable {S : System} {Q : Partition} {v : Violation} {B : List State} {s : State}

/-- All states of the block have labels that agree. -/
def Uniform (S : System) (B : List State) : Prop :=
  ∀ s ∈ B, ∀ t ∈ B, (S.label s).agrees (S.label t) = true

/-- The block at place `i` is the first whose states do not all look alike, `s` is its first state,
and `t` the first of its states that looks different from `s`. -/
def FirstMixture (S : System) (Q : Partition) (i : Nat) (s t : State) : Prop :=
  ∃ B, FirstAt (fun C => ¬S.Uniform C) Q i B ∧ B.head? = some s ∧
    First (fun u => ¬(S.label s).agrees (S.label u) = true) B t

/-- The first state of the block and the first other state that looks different. -/
def mixture? (S : System) : List State → Option (State × State)
  | [] => none
  | s :: ss => (ss.find? fun t => !(S.label s).agrees (S.label t)).map fun t => (s, t)

theorem uniform_cons_iff {ss : List State} :
    S.Uniform (s :: ss) ↔ ∀ t ∈ ss, (S.label s).agrees (S.label t) = true :=
  ⟨fun h t ht => h s List.mem_cons_self t (List.mem_cons_of_mem s ht), agrees_of_agrees_first⟩

theorem mixture?_eq_none_iff : S.mixture? B = none ↔ S.Uniform B := by
  cases B with
  | nil => simp [mixture?, Uniform]
  | cons s ss => simp [mixture?, uniform_cons_iff]

theorem mixture?_eq_some_iff {t : State} : S.mixture? B = some (s, t) ↔
    B.head? = some s ∧ First (fun u => ¬(S.label s).agrees (S.label u) = true) B t := by
  cases B with
  | nil => simp [mixture?]
  | cons u us =>
    have hdiffers (t : State) : (us.find? fun t => !(S.label u).agrees (S.label t)) = some t ↔
        First (fun t => ¬(S.label u).agrees (S.label t) = true) us t :=
      find?_eq_some_iff_first fun t => by simp
    simp only [mixture?, Option.map_eq_some_iff, hdiffers, List.head?_cons, Option.some.injEq,
      Prod.mk.injEq]
    constructor
    · rintro ⟨_, ht, rfl, rfl⟩
      exact ⟨rfl, first_cons_iff.mpr (.inr ⟨fun h => h (Label.agrees_refl _), ht⟩)⟩
    · rintro ⟨rfl, ht⟩
      rcases first_cons_iff.mp ht with ⟨rfl, hself⟩ | ⟨_, ht⟩
      · exact absurd (Label.agrees_refl _) hself
      · exact ⟨t, ht, rfl, rfl⟩

theorem mixedBlock?_eq_findSome? : S.mixedBlock? Q = Q.zipIdx.findSome? fun entry =>
    (S.mixture? entry.1).map fun pair => .mixedLabels entry.2 pair.1 pair.2 := by
  unfold mixedBlock?
  congr 1
  funext ⟨B, i⟩
  cases B with
  | nil => rfl
  | cons s ss => simp only [mixture?, Option.map_map, Function.comp_def]

theorem mixedBlock?_eq_some_iff : S.mixedBlock? Q = some v ↔
    ∃ i s t, v = .mixedLabels i s t ∧ S.FirstMixture Q i s t := by
  rw [mixedBlock?_eq_findSome?, findSome?_zipIdx_eq_some_iff (p := fun B => ¬S.Uniform B)]
  · simp only [Option.map_eq_some_iff, Prod.exists, mixture?_eq_some_iff, Nat.zero_add]
    constructor
    · rintro ⟨i, B, hB, s, t, ⟨hs, ht⟩, rfl⟩
      exact ⟨i, s, t, rfl, B, hB, hs, ht⟩
    · rintro ⟨i, s, t, rfl, B, hB, hs, ht⟩
      exact ⟨i, B, hB, s, t, ⟨hs, ht⟩, rfl⟩
  · intro B i
    rw [Option.map_eq_none_iff, mixture?_eq_none_iff, Classical.not_not]

/-! ## Checked reading -/

/-- Finds the states of `mixture?` by their places in the block. -/
def readMixture (S : System) (B : List State) : Except OutOfBounds (Option (State × State)) := do
  let s ← readAt B 0
  let others ← readFrom B 1
  return (others.find? fun t => !(S.label s).agrees (S.label t)).map fun t => (s, t)

/-- Goes through the blocks, which are counted from `i`, as long as they look alike inside. -/
def readMixedBlock (S : System) : Nat → Partition → Except OutOfBounds (Option Violation)
  | _, [] => .ok none
  | i, B :: Bs => do
    match ← S.readMixture B with
    | some (s, t) => return some (.mixedLabels i s t)
    | none => S.readMixedBlock (i + 1) Bs

/-- The test for blocks that look alike inside, with every read of a block checked. -/
def readObservation (S : System) (Q : Partition) : Except OutOfBounds (Option Violation) :=
  match S.partitionViolation? Q with
  | some v => .ok (some v)
  | none => S.readMixedBlock 0 Q

theorem readMixture_eq_ok (hB : B ≠ []) : S.readMixture B = .ok (S.mixture? B) := by
  cases B with
  | nil => exact absurd rfl hB
  | cons s ss => rfl

/-- An empty block cannot be read. -/
example : S.readMixture [] = .error ⟨0, 0⟩ := rfl

theorem readMixedBlock_eq_ok {i : Nat} (hQ : ∀ B ∈ Q, B ≠ []) :
    S.readMixedBlock i Q = .ok ((Q.zipIdx i).findSome? fun entry =>
      (S.mixture? entry.1).map fun pair => .mixedLabels entry.2 pair.1 pair.2) := by
  induction Q generalizing i with
  | nil => rfl
  | cons B Q ih =>
    have hrest := ih (i := i + 1) fun C hC => hQ C (List.mem_cons_of_mem B hC)
    rw [readMixedBlock, readMixture_eq_ok (hQ B List.mem_cons_self), hrest, List.zipIdx_cons,
      List.findSome?_cons]
    cases S.mixture? B with
    | none => rfl
    | some pair => rfl

/-- Every read succeeds: empty blocks are turned away before any block is read. -/
theorem readObservation_eq_ok : S.readObservation Q = .ok (S.observationViolation? Q) := by
  unfold readObservation observationViolation?
  cases h : S.partitionViolation? Q with
  | some v => rfl
  | none =>
    have hQ := partitionViolation?_eq_none_iff.mp h
    exact (readMixedBlock_eq_ok hQ.nonempty).trans
      (congrArg Except.ok mixedBlock?_eq_findSome?.symm)

/-- **Which partitions do not mix labels, and what is reported of the others.** -/
theorem observation_outcomes (S : System) (Q : Partition) :
    S.readObservation Q = .ok (S.observationViolation? Q) ∧
    (S.observationViolation? Q = none ↔ S.partitionViolation? Q = none ∧
      ∀ B ∈ Q, ∀ s ∈ B, ∀ t ∈ B, (S.label s).agrees (S.label t) = true) ∧
    (∀ v, S.partitionViolation? Q = some v → S.observationViolation? Q = some v) ∧
    (S.partitionViolation? Q = none → ∀ v, S.observationViolation? Q = some v ↔
      ∃ i s t, v = .mixedLabels i s t ∧ S.FirstMixture Q i s t) := by
  refine ⟨readObservation_eq_ok, ?_, ?_, ?_⟩
  · rw [observationViolation?, Option.or_eq_none_iff, mixedBlock?_eq_none_iff, SameLabels]
  · intro v hv
    rw [observationViolation?, hv, Option.some_or]
  · intro hnone v
    rw [observationViolation?, hnone, Option.none_or, mixedBlock?_eq_some_iff]

/-- The first two states look alike, though their labels are written differently. -/
def sameTwo : System :=
  .ofEntries (State.ofNames ["1", "2", "3"]) [] [] [] (Label.ofNames ["p", "q"])
    [(.named "1", Label.ofNames ["p", "q"]), (.named "2", Label.ofNames ["q", "p", "q"]),
      (.named "3", Label.ofNames ["p"])]

theorem observation_outcomes_sameTwo :
    sameTwo.observationViolation? [State.ofNames ["1", "2"], State.ofNames ["3"]] = none ∧
      sameTwo.observationViolation? [State.ofNames ["2"], State.ofNames ["3"]] =
        some (.uncoveredState (.named "1")) ∧
      sameTwo.FirstMixture [State.ofNames ["1", "2", "3"]] 0 (.named "1") (.named "3") := by
  obtain ⟨_, hnone, _, _⟩ :=
    observation_outcomes sameTwo [State.ofNames ["1", "2"], State.ofNames ["3"]]
  obtain ⟨_, _, hpartition, _⟩ :=
    observation_outcomes sameTwo [State.ofNames ["2"], State.ofNames ["3"]]
  obtain ⟨_, _, _, hmixed⟩ := observation_outcomes sameTwo [State.ofNames ["1", "2", "3"]]
  refine ⟨hnone.mpr ⟨by decide, by decide⟩, hpartition _ (by decide), ?_⟩
  obtain ⟨i, s, t, heq, hfirst⟩ :=
    (hmixed (by decide) (.mixedLabels 0 (.named "1") (.named "3"))).mp (by decide)
  cases heq
  exact hfirst

end System
end TransitionSystems
