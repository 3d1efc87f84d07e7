import TransitionSystems.Catalogue
import TransitionSystems.Proofs.Lassos.Unrolling
import TransitionSystems.Proofs.Search
import TransitionSystems.Proofs.Steps

/-!
Finite executions as runs. The executions that a system admits are built step by step from the front
(`admits_execution_iff`). In a valid system a run leads along successors from its first state to its
last one (`Run.leads`), and whatever successors lead to ends a run (`exists_run_of_leads`).

A path is led on by one more state, an execution by one more action and state. Whether what is
admitted stays so depends on the last step alone (`admits_path_append_iff`, `Run.append_iff`), hence
an admitted fragment ends in a terminal state if and only if nothing leads it on
(`isMaximal_iff_no_extension`). The empty path is not maximal, since any state can begin a path.
-/
namespace TransitionSystems.System

/-- Each action leads from the state before it to the state after it. -/
inductive Run (S : System) : List State → List Action → Prop
  | single (s : State) : Run S [s] []
  | step {s t : State} {ss : List State} {a : Action} {as : List Action} :
      t ∈ S.successorsBy s a → Run S (t :: ss) as → Run S (s :: t :: ss) (a :: as)

variable {S : System} {s t : State} {a : Action}

theorem run_cons_cons_iff {ss : List State} {as : List Action} :
    S.Run (s :: t :: ss) (a :: as) ↔ t ∈ S.successorsBy s a ∧ S.Run (t :: ss) as := by
  constructor
  · intro h
    cases h with
    | step ht hrest => exact ⟨ht, hrest⟩
  · rintro ⟨ht, hrest⟩
    exact .step ht hrest

/-- The lists fit together, and the system has all steps. -/
theorem run_iff {ss : List State} {as : List Action} :
    S.Run ss as ↔ ss.length = as.length + 1 ∧ S.HasSteps ⟨ss, as⟩ := by
  induction as generalizing ss with
  | nil =>
    rcases ss with _ | ⟨s, _ | ⟨t, ss⟩⟩
    · exact iff_of_false (fun h => by cases h) (by simp)
    · exact iff_of_true (.single s) ⟨rfl, by simp [HasSteps, Execution.steps]⟩
    · exact iff_of_false (fun h => by cases h) (by simp)
  | cons a as ih =>
    rcases ss with _ | ⟨s, _ | ⟨t, ss⟩⟩
    · exact iff_of_false (fun h => by cases h) (by simp)
    · exact iff_of_false (fun h => by cases h) (by simp)
    · rw [run_cons_cons_iff, ih, hasSteps_cons_cons_iff]
      simp only [List.length_cons, Nat.add_right_cancel_iff]
      exact and_left_comm

theorem admits_execution_iff {e : Execution} :
    S.Admits (.execution e) ↔ S.Run e.states e.actions := by
  rw [run_iff, Admits, fragmentViolation?, executionViolation?]
  split
  · rename_i hlen
    rw [brokenTransition?_eq_none_iff, and_iff_right hlen]
  · rename_i hlen
    simp [hlen]

theorem Run.leads (hS : S.Valid) {ss : List State} {as : List Action} (h : S.Run ss as)
    (hs : ss.head? = some s) (ht : ss.getLast? = some t) :
    Search.Leads S.successors s t := by
  induction h generalizing s with
  | single u =>
    cases hs
    cases ht
    exact .refl
  | step hstep _ ih =>
    cases hs
    exact .head (hS.mem_successors_iff.mpr ⟨_, hstep⟩) (ih rfl (by simpa using ht))

theorem exists_run_of_leads (h : Search.Leads S.successors s t) :
    ∃ ss as, S.Run (s :: ss) as ∧ (s :: ss).getLast? = some t := by
  induction h using Relation.ReflTransGen.head_induction_on with
  | refl => exact ⟨[], [], .single t, rfl⟩
  | @head s u hstep _ ih =>
    obtain ⟨ss, as, hrun, hlast⟩ := ih
    obtain ⟨a, _, hu⟩ := mem_successors.mp hstep
    exact ⟨u :: ss, a :: as, .step hu hrun, by simpa using hlast⟩

/-! ## Maximal fragments -/

theorem admits_path_append_iff {π : Path} : S.Admits (.path (π ++ [t])) ↔
    S.Admits (.path π) ∧ ∀ s ∈ π.getLast?, t ∈ S.successors s := by
  simp only [admits_path_iff, List.isChain_append, List.isChain_singleton, List.head?_cons,
    Option.mem_some_iff, forall_eq', true_and]

theorem Run.append_iff {ss : List State} {as : List Action} (h : S.Run ss as) :
    S.Run (ss ++ [t]) (as ++ [a]) ↔ ∃ s, ss.getLast? = some s ∧ t ∈ S.successorsBy s a := by
  induction h with
  | single s =>
    have hstep : S.Run [s, t] [a] ↔ t ∈ S.successorsBy s a ∧ S.Run [t] [] := run_cons_cons_iff
    simpa [Run.single] using hstep
  | @step s u ss b as hu _ ih =>
    have hstep : S.Run (s :: u :: (ss ++ [t])) (b :: (as ++ [a])) ↔
        u ∈ S.successorsBy s b ∧ S.Run (u :: ss ++ [t]) (as ++ [a]) := run_cons_cons_iff
    rw [List.getLast?_cons_cons, ← ih]
    exact hstep.trans (and_iff_right hu)

theorem isMaximal_path_iff {π : Path} (h : S.Admits (.path π)) :
    (Fragment.path π).isMaximal S = true ↔ ¬∃ t, S.Admits (.path (π ++ [t])) := by
  simp only [admits_path_append_iff, h, true_and, Fragment.isMaximal]
  cases π.getLast? with
  | none => simp
  | some s => simp [isTerminal_iff]

theorem isMaximal_execution_iff (hS : S.Valid) {e : Execution} (h : S.Admits (.execution e)) :
    (Fragment.execution e).isMaximal S = true ↔
      ¬∃ a t, S.Admits (.execution ⟨e.states ++ [t], e.actions ++ [a]⟩) := by
  have hrun := admits_execution_iff.mp h
  have hne : e.states ≠ [] := by
    intro hnil
    rw [hnil] at hrun
    cases hrun
  have hlast := List.getLast?_eq_some_getLast hne
  simp only [admits_execution_iff, hrun.append_iff, Fragment.isMaximal, Execution.path, hlast,
    Option.any_some, Option.some.injEq, exists_eq_left', isTerminal_iff, hS.mem_successors_iff,
    not_exists]
  exact forall_comm

/-- **Maximal fragments are those that cannot be led on.** Any state and any action may be tried,
declared or not. -/
theorem isMaximal_iff_no_extension (hS : S.Valid) :
    (∀ π : Path, S.Admits (.path π) →
      ((Fragment.path π).isMaximal S = true ↔ ¬∃ t, S.Admits (.path (π ++ [t])))) ∧
    (∀ e : Execution, S.Admits (.execution e) →
      ((Fragment.execution e).isMaximal S = true ↔
        ¬∃ a t, S.Admits (.execution ⟨e.states ++ [t], e.actions ++ [a]⟩))) :=
  ⟨fun _ hπ => isMaximal_path_iff hπ, fun _ he => isMaximal_execution_iff hS he⟩

/-- Nothing leads on from the last state of the chain, but something does from the one before it.
The empty path is led on as well. -/
theorem isMaximal_iff_no_extension_simpleChain :
    Catalogue.simpleChain.Valid ∧
      (¬∃ t, Catalogue.simpleChain.Admits (.path (State.ofNames ["1", "2", "3"] ++ [t]))) ∧
      (∃ t, Catalogue.simpleChain.Admits (.path ([] ++ [t]))) ∧
      (¬∃ a t, Catalogue.simpleChain.Admits
        (.execution ⟨State.ofNames ["2", "3"] ++ [t], [⟨"a"⟩] ++ [a]⟩)) ∧
      (Fragment.execution ⟨State.ofNames ["1", "2"], [⟨"a"⟩]⟩).isMaximal Catalogue.simpleChain =
        false := by
  have hvalid : Catalogue.simpleChain.Valid := by decide
  obtain ⟨hpath, hexecution⟩ := isMaximal_iff_no_extension hvalid
  refine ⟨hvalid, (hpath _ (by decide)).mp (by decide), ?_,
    (hexecution ⟨_, _⟩ (by decide)).mp (by decide), ?_⟩
  · by_contra hnone
    exact absurd ((hpath [] (by decide)).mpr hnone) (by decide)
  · rw [Bool.eq_false_iff, ne_eq, hexecution _ (by decide), Classical.not_not]
    exact ⟨⟨"a"⟩, .named "3", by decide⟩

end TransitionSystems.System
