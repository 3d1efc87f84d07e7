import TransitionSystems.Proofs.Determinism
import TransitionSystems.Proofs.SetEquality.Answers

/-!
Determinism of systems that are equal as sets. Steps are compared as sets, so the only listing that
makes a difference is that of the initial states: a state that is listed twice counts twice. Systems
that both list them without repeats, or both with repeats, pass the same tests
(`determinism_of_setEqual`); a repeat alone can decide (`determinism_counts_repeats`).
-/
namespace TransitionSystems.System

variable {S T : System}

theorem length_initial_le_one_iff :
    S.initial.length ≤ 1 ↔ S.initial.Nodup ∧ ∀ s ∈ S.initial, ∀ t ∈ S.initial, s = t := by
  constructor
  · intro hlen
    have hnodup : S.initial.Nodup := by
      rcases h : S.initial with _ | ⟨s, _ | ⟨t, ss⟩⟩
      · exact .nil
      · exact List.nodup_singleton s
      · simp [h] at hlen
    exact ⟨hnodup, (ListSet.length_le_one_iff hnodup).mp hlen⟩
  · rintro ⟨hnodup, hone⟩
    exact (ListSet.length_le_one_iff hnodup).mpr hone

theorem SetEqual.length_initial_le_one_iff (h : SetEqual S T)
    (hrepeats : S.initial.Nodup ↔ T.initial.Nodup) :
    S.initial.length ≤ 1 ↔ T.initial.length ≤ 1 := by
  rw [System.length_initial_le_one_iff, System.length_initial_le_one_iff, hrepeats]
  simp only [h.initial]

theorem SetEqual.actionsDecide_iff (h : SetEqual S T) : S.ActionsDecide ↔ T.ActionsDecide := by
  simp only [ActionsDecide, h.mem_successorsBy_iff]

theorem SetEqual.labelsDecide_iff (h : SetEqual S T) : S.LabelsDecide ↔ T.LabelsDecide := by
  simp only [LabelsDecide, Label.agrees_iff, h.mem_successors_iff, h.mem_label_iff]

/-- **Determinism of systems that are equal as sets.** If both list an initial state twice or
neither does, they pass the same tests. What a test asks for is that the list of initial states has
no repeats and only one element, if any, and that steps are decided. -/
theorem determinism_of_setEqual (h : SetEqual S T) :
    ((S.initial.Nodup ↔ T.initial.Nodup) →
      S.isActionDeterministic = T.isActionDeterministic ∧
        S.isLabelDeterministic = T.isLabelDeterministic) ∧
    (S.isActionDeterministic = true ↔
      (S.initial.Nodup ∧ ∀ s ∈ S.initial, ∀ t ∈ S.initial, s = t) ∧ S.ActionsDecide) ∧
    (S.isLabelDeterministic = true ↔
      (S.initial.Nodup ∧ ∀ s ∈ S.initial, ∀ t ∈ S.initial, s = t) ∧ S.LabelsDecide) := by
  refine ⟨?_, ?_, ?_⟩
  · intro hrepeats
    have hlen := h.length_initial_le_one_iff hrepeats
    constructor
    · rw [Bool.eq_iff_iff, isActionDeterministic_iff h.left, isActionDeterministic_iff h.right,
        hlen, h.actionsDecide_iff]
    · rw [Bool.eq_iff_iff, isLabelDeterministic_iff h.left, isLabelDeterministic_iff h.right,
        hlen, h.labelsDecide_iff]
  · rw [isActionDeterministic_iff h.left, length_initial_le_one_iff]
  · rw [isLabelDeterministic_iff h.left, length_initial_le_one_iff]

/-- The fork with its lists in other orders and with repeats, except for its initial states. -/
def untidyFork : System :=
  .ofEntries (State.ofNames ["3", "1", "2", "3"]) [⟨"b"⟩, ⟨"a"⟩, ⟨"b"⟩]
    [(.named "1", [(⟨"b"⟩, State.ofNames ["3", "3"]), (⟨"a"⟩, State.ofNames ["2"])]),
      (.named "3", [(⟨"b"⟩, [])])]
    (State.ofNames ["1"]) (Label.ofNames ["q", "p", "q"])
    [(.named "3", Label.ofNames ["p", "q"]), (.named "2", Label.ofNames ["q", "p"]),
      (.named "1", [])]

theorem determinism_of_setEqual_untidyFork :
    SetEqual fork untidyFork ∧ fork.isActionDeterministic = true ∧
      fork.isLabelDeterministic = false ∧
      fork.isActionDeterministic = untidyFork.isActionDeterministic ∧
      fork.isLabelDeterministic = untidyFork.isLabelDeterministic := by
  have h : SetEqual fork untidyFork := by decide
  obtain ⟨hsame, _, _⟩ := determinism_of_setEqual h
  exact ⟨h, by decide, by decide, hsame (by decide)⟩

/-- A single state without moves, which is listed as initial a number of times. -/
def soleState (entries : Nat) : System :=
  .ofEntries [.named "1"] [] [] (List.replicate entries (.named "1")) [] []

/-- The initial state of one system is that of the other, but only the one that lists it once is
deterministic. -/
theorem determinism_counts_repeats :
    SetEqual (soleState 1) (soleState 2) ∧
      (soleState 1).isActionDeterministic = true ∧ (soleState 2).isActionDeterministic = false ∧
      (soleState 1).isLabelDeterministic = true ∧ (soleState 2).isLabelDeterministic = false := by
  decide

end TransitionSystems.System
