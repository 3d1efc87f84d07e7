import Mathlib.Data.List.Nodup
import TransitionSystems.Proofs.Simulation
import TransitionSystems.Proofs.Subsets

/-!
Deterministic systems. The two tests compare the successors of declared states; in a valid system
they say that no two steps from any state take the same action, or lead to labels that agree
(`isActionDeterministic_iff`, `isLabelDeterministic_iff`). Then a run is known from its first state
and its actions, or from its first state and its trace, and in no other case
(`determinism_iff_unique_runs`).

The label of each state of a valid system agrees with a subset of the declared propositions
(`Valid.exists_mem_subsets_agrees`), so that to compare successors with each other is to compare
them with each subset in turn (`isLabelDeterministic_iff_subsets`).
-/
namespace TransitionSystems.System

variable {S : System}

/-! ## Single steps -/

theorem isActionDeterministic_iff (hS : S.Valid) :
    S.isActionDeterministic = true ↔ S.initial.length ≤ 1 ∧ S.ActionsDecide := by
  simp only [isActionDeterministic, Bool.and_eq_true, decide_eq_true_eq, List.all_eq_true,
    ListSet.length_le_one_iff (nodup_successorsBy S _ _)]
  refine and_congr_right fun _ => ⟨?_, fun h s _ a _ => h s a⟩
  intro h s a t ht
  exact h s (hS.source_of_step ht) a (hS.action_of_step ht) t ht

/-- Of states without repeats, it is enough to compare the label of each with those after it. -/
theorem pairwise_not_agrees_iff {ss : List State} (h : ss.Nodup) :
    ss.Pairwise (fun t u => ¬(S.label t).agrees (S.label u) = true) ↔
      ∀ t ∈ ss, ∀ u ∈ ss, (S.label t).agrees (S.label u) = true → t = u := by
  have : Std.Symm fun t u => ¬(S.label t).agrees (S.label u) = true :=
    ⟨fun _ _ hdiffer hsame => hdiffer (Label.agrees_symm hsame)⟩
  constructor
  · intro hpair t ht u hu hsame
    by_contra hne
    exact hpair.forall ht hu hne hsame
  · intro hall
    exact h.pairwise_of_forall_ne fun t ht u hu hne hsame => hne (hall t ht u hu hsame)

theorem isLabelDeterministic_iff (hS : S.Valid) :
    S.isLabelDeterministic = true ↔ S.initial.length ≤ 1 ∧ S.LabelsDecide := by
  simp only [isLabelDeterministic, Bool.and_eq_true, decide_eq_true_eq, List.all_eq_true,
    pairwise_not_agrees_iff (nodup_successors S _)]
  refine and_congr_right fun _ => ⟨?_, fun h s _ => h s⟩
  intro h s t ht
  exact h s (hS.source_of_successor ht) t ht

/-! ## Runs -/

theorem ActionsDecide.run_unique (h : S.ActionsDecide) {ss ts : List State} {as : List Action}
    (hs : S.Run ss as) (ht : S.Run ts as) (hstart : ss.head? = ts.head?) : ss = ts := by
  induction hs generalizing ts with
  | single s =>
    cases ht with
    | single t => exact congrArg ([·]) (Option.some.inj hstart)
  | step hstep _ ih =>
    cases ht with
    | step hstep' hrest =>
      cases hstart
      have hnext := h _ _ _ hstep _ hstep'
      rw [ih hrest (congrArg some hnext)]

theorem LabelsDecide.path_unique (h : S.LabelsDecide) {π ρ : Path}
    (hπ : π.IsChain fun s t => t ∈ S.successors s) (hρ : ρ.IsChain fun s t => t ∈ S.successors s)
    (hstart : π.head? = ρ.head?)
    (hlabels : List.Forall₂ (fun s t => (S.label s).agrees (S.label t) = true) π ρ) : π = ρ := by
  induction hlabels with
  | nil => rfl
  | cons _ hrest ih =>
    cases hstart
    cases hrest with
    | nil => rfl
    | cons hnext _ =>
      rw [List.isChain_cons_cons] at hπ hρ
      have hsame := h _ _ hπ.1 _ hρ.1 hnext
      rw [ih hπ.2 hρ.2 (congrArg some hsame)]

/-- **Determinism and runs.** Each test is passed if there is at most one entry in the list of
initial states and no two runs that start alike and do, or show, the same visit different states. -/
theorem determinism_iff_unique_runs (hS : S.Valid) :
    (S.isActionDeterministic = true ↔ S.initial.length ≤ 1 ∧
      ∀ e f : Execution, S.Admits (.execution e) → S.Admits (.execution f) →
        e.states.head? = f.states.head? → e.actions = f.actions → e.states = f.states) ∧
    (S.isLabelDeterministic = true ↔ S.initial.length ≤ 1 ∧
      ∀ π ρ : Path, S.Admits (.path π) → S.Admits (.path ρ) → π.head? = ρ.head? →
        ((Fragment.path π).trace S).Agrees ((Fragment.path ρ).trace S) → π = ρ) := by
  rw [isActionDeterministic_iff hS, isLabelDeterministic_iff hS]
  simp only [admits_execution_iff, admits_path_iff]
  refine ⟨and_congr_right fun _ => ⟨?_, ?_⟩, and_congr_right fun _ => ⟨?_, ?_⟩⟩
  · rintro h ⟨ss, as⟩ ⟨ts, bs⟩ hs ht hstart rfl
    exact h.run_unique hs ht hstart
  · intro h s a t ht u hu
    have heq := h ⟨[s, t], [a]⟩ ⟨[s, u], [a]⟩ (.step ht (.single t)) (.step hu (.single u)) rfl rfl
    simpa using heq
  · intro h π ρ hπ hρ hstart htrace
    have hlabels : List.Forall₂ (fun l m : Label => l.agrees m = true) (π.map S.label)
        (ρ.map S.label) := htrace
    rw [List.forall₂_map_left_iff, List.forall₂_map_right_iff] at hlabels
    exact h.path_unique hπ hρ hstart hlabels
  · intro h s t ht u hu hsame
    have heq := h [s, t] [s, u] (.cons_cons ht (.singleton t)) (.cons_cons hu (.singleton u)) rfl
      (.cons (Label.agrees_refl _) (.cons hsame .nil))
    simpa using heq

/-- The two branches take different actions, but show the same propositions. -/
def fork : System :=
  .ofEntries (State.ofNames ["1", "2", "3"]) [⟨"a"⟩, ⟨"b"⟩]
    [(.named "1", [(⟨"a"⟩, State.ofNames ["2", "2"]), (⟨"b"⟩, State.ofNames ["3"])])]
    (State.ofNames ["1"]) (Label.ofNames ["p", "q"])
    [(.named "2", Label.ofNames ["p", "q"]), (.named "3", Label.ofNames ["q", "p", "q"])]

theorem determinism_iff_unique_runs_fork :
    fork.Valid ∧ fork.isActionDeterministic = true ∧ fork.isLabelDeterministic = false ∧
      (∀ e f : Execution, fork.Admits (.execution e) → fork.Admits (.execution f) →
        e.states.head? = f.states.head? → e.actions = f.actions → e.states = f.states) ∧
      ¬(fork.initial.length ≤ 1 ∧
        ∀ π ρ : Path, fork.Admits (.path π) → fork.Admits (.path ρ) → π.head? = ρ.head? →
          ((Fragment.path π).trace fork).Agrees ((Fragment.path ρ).trace fork) → π = ρ) := by
  have hvalid : fork.Valid := by decide
  have haction : fork.isActionDeterministic = true := by decide
  have hlabel : fork.isLabelDeterministic = false := by decide
  obtain ⟨hexecutions, hpaths⟩ := determinism_iff_unique_runs hvalid
  refine ⟨hvalid, haction, hlabel, (hexecutions.mp haction).2, ?_⟩
  rw [← hpaths, hlabel]
  decide

/-! ## Subsets -/

theorem Valid.exists_mem_subsets_agrees (hS : S.Valid) (s : State) :
    ∃ l ∈ subsets S.propositions, (S.label s).agrees l = true := by
  obtain ⟨l, hl, hsame⟩ := exists_mem_subsets_isSame (hS.proposition s)
  exact ⟨l, hl, Label.agrees_symm hsame⟩

/-- At most one state of a list without repeats has a label that agrees with `l`. -/
theorem countP_agrees_le_one_iff {ss : List State} (h : ss.Nodup) (l : Label) :
    ss.countP (fun t => (S.label t).agrees l) ≤ 1 ↔
      ∀ t ∈ ss, (S.label t).agrees l = true → ∀ u ∈ ss, (S.label u).agrees l = true → t = u := by
  rw [List.countP_eq_length_filter, ListSet.length_le_one_iff (h.filter _)]
  simp only [List.mem_filter, and_imp]

theorem labelsDecide_iff_subsets (hS : S.Valid) :
    S.LabelsDecide ↔ ∀ s ∈ S.states, ∀ l ∈ subsets S.propositions,
      (S.successors s).countP (fun t => (S.label t).agrees l) ≤ 1 := by
  simp only [countP_agrees_le_one_iff (nodup_successors S _)]
  constructor
  · intro h s _ l _ t ht htl u hu hul
    exact h s t ht u hu (Label.agrees_trans htl (Label.agrees_symm hul))
  · intro h s t ht u hu hsame
    obtain ⟨l, hl, htl⟩ := hS.exists_mem_subsets_agrees t
    have hul := Label.agrees_trans (Label.agrees_symm hsame) htl
    exact h s (hS.source_of_successor ht) l hl t ht htl u hu hul

/-- **Label determinism by subsets.** The test, which compares successors in pairs, is passed if
there is at most one entry in the list of initial states and no state has two successors that are
labelled with the same subset of the propositions. -/
theorem isLabelDeterministic_iff_subsets (hS : S.Valid) (hsmall : S.propositions.length < 64) :
    ∃ ls, subsets? S.propositions = .ok ls ∧
      (S.isLabelDeterministic = true ↔ S.initial.length ≤ 1 ∧
        ∀ s ∈ S.states, ∀ l ∈ ls,
          (S.successors s).countP (fun t => (S.label t).agrees l) ≤ 1) := by
  refine ⟨subsets S.propositions, if_pos hsmall, ?_⟩
  rw [isLabelDeterministic_iff hS, labelsDecide_iff_subsets hS]

/-- The successors of one state have labels that differ in order and repeats alone. -/
theorem isLabelDeterministic_iff_subsets_fork :
    fork.Valid ∧ fork.propositions.length < 64 ∧
      ∃ ls, subsets? fork.propositions = .ok ls ∧ fork.isLabelDeterministic = false ∧
        ¬(fork.initial.length ≤ 1 ∧
          ∀ s ∈ fork.states, ∀ l ∈ ls,
            (fork.successors s).countP (fun t => (fork.label t).agrees l) ≤ 1) := by
  have hvalid : fork.Valid := by decide
  have hsmall : fork.propositions.length < 64 := by decide
  have hlabel : fork.isLabelDeterministic = false := by decide
  obtain ⟨ls, hls, hiff⟩ := isLabelDeterministic_iff_subsets hvalid hsmall
  refine ⟨hvalid, hsmall, ls, hls, hlabel, ?_⟩
  rw [← hiff, hlabel]
  decide

end TransitionSystems.System
