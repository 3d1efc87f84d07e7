import TransitionSystems.Fragment.Validity
import TransitionSystems.Proofs.Lassos.Words

/-!
Endless runs as limits of finite ones. A lasso of a path or of an execution passes its finitely many
checks if and only if each beginning of the endless run passes its own, and it starts as they start
and shows what they show (`admits_lasso_iff_beginnings`). The system may be any, valid or not.
-/
namespace TransitionSystems

/-- The states that the execution leaves, each with the action that it takes there. -/
def Execution.departures (e : Execution) : List (State × Action) := e.states.zip e.actions

theorem Execution.departures_ne_nil {e : Execution} (hlen : e.states.length = e.actions.length)
    (hne : e.states ≠ []) : e.departures ≠ [] := by
  obtain ⟨ss, as⟩ := e
  match ss, as, hlen, hne with
  | s :: ss, a :: as, _, _ => exact List.cons_ne_nil _ _

/-- The first `n` states of the endless execution and the actions between them. -/
def Lasso.beginning (l : Lasso Execution) (n : Nat) : Execution :=
  ⟨(l.map Execution.states).take n, (l.map Execution.actions).take (n - 1)⟩

namespace System

/-- The one departure leads to the state of the other. -/
def Arrives (S : System) (x y : State × Action) : Prop := y.1 ∈ S.successorsBy x.1 x.2

variable {S : System}

/-! ## Paths -/

theorem brokenStep?_eq_none_iff_isChain {i : Nat} {p : Path} :
    S.brokenStep? i p = none ↔ p.IsChain fun s t => t ∈ S.successors s := by
  rw [brokenStep?_eq_none_iff]
  induction p with
  | nil => simp
  | cons s p ih =>
    cases p with
    | nil => simp
    | cons t p =>
      rw [List.tail_cons, List.zip_cons_cons, List.forall_mem_cons, List.isChain_cons_cons, ← ih,
        List.tail_cons]

theorem admits_path_iff {p : Path} :
    S.Admits (.path p) ↔ p.IsChain fun s t => t ∈ S.successors s :=
  brokenStep?_eq_none_iff_isChain

theorem notLeading?_eq_none_iff {p : Path} {head : State} :
    S.notLeading? p head = none ↔ ∀ s ∈ p.getLast?, head ∈ S.successors s := by
  simp [notLeading?, Option.filter_eq_none_iff]

theorem admits_pathLasso_iff {l : Lasso Path} :
    S.Admits (.pathLasso l) ↔ l.cycle ≠ [] ∧ l.Linked fun s t => t ∈ S.successors s := by
  obtain ⟨stem, cycle⟩ := l
  rw [Admits, fragmentViolation?, pathLassoViolation?]
  cases cycle with
  | nil => simp
  | cons head ss =>
    simp only [List.head?_cons, Option.or_eq_none_iff, Option.map_eq_none_iff,
      brokenStep?_eq_none_iff_isChain, notLeading?_eq_none_iff, Lasso.linked_cons_iff, ne_eq,
      reduceCtorEq, not_false_eq_true, true_and]

/-! ## Executions -/

/-- If each state has an action, the steps lead from departure to departure. -/
theorem hasSteps_iff_isChain {ss : List State} {as : List Action}
    (hlen : ss.length ≤ as.length) : S.HasSteps ⟨ss, as⟩ ↔ (ss.zip as).IsChain S.Arrives := by
  induction as generalizing ss with
  | nil =>
    obtain rfl : ss = [] := by simpa using hlen
    simp [HasSteps, Execution.steps]
  | cons a as ih =>
    rcases ss with _ | ⟨s, _ | ⟨t, ss⟩⟩
    · simp [HasSteps, Execution.steps]
    · simp [HasSteps, Execution.steps]
    · cases as with
      | nil => simp at hlen
      | cons b as =>
        have hlen' : (t :: ss).length ≤ (b :: as).length := by simpa using hlen
        rw [hasSteps_cons_cons_iff, ih hlen']
        simp only [List.zip_cons_cons, List.isChain_cons_cons]
        rfl

theorem brokenTransition?_eq_none_iff_isChain {i : Nat} {ss : List State} {as : List Action}
    (hlen : ss.length ≤ as.length) :
    S.brokenTransition? i ss as = none ↔ (ss.zip as).IsChain S.Arrives :=
  brokenTransition?_eq_none_iff.trans (hasSteps_iff_isChain hlen)

theorem notLeadingBy?_eq_none_iff {e : Execution} {head : State}
    (hlen : e.states.length = e.actions.length) :
    S.notLeadingBy? e head = none ↔
      ∀ x ∈ e.departures.getLast?, head ∈ S.successorsBy x.1 x.2 := by
  obtain ⟨ss, as⟩ := e
  -- Only the last state and the last action count, so the lists are taken apart at their ends.
  rcases List.eq_nil_or_concat ss with rfl | ⟨ss, s, rfl⟩
  · simp [notLeadingBy?, Execution.departures]
  · rcases List.eq_nil_or_concat as with rfl | ⟨as, a, rfl⟩
    · simp at hlen
    · have hlen' : ss.length = as.length := by simpa using hlen
      by_cases ht : head ∈ S.successorsBy s a
      · simp [notLeadingBy?, Execution.departures, List.zip_append hlen', ht]
      · simp [notLeadingBy?, Execution.departures, List.zip_append hlen', ht]

theorem admits_executionLasso_iff {l : Lasso Execution} :
    S.Admits (.executionLasso l) ↔
      l.stem.states.length = l.stem.actions.length ∧
        l.cycle.states.length = l.cycle.actions.length ∧ l.cycle.states ≠ [] ∧
        (l.map Execution.departures).Linked S.Arrives := by
  obtain ⟨stem, ⟨ss, as⟩⟩ := l
  rw [Admits, fragmentViolation?, executionLassoViolation?]
  by_cases hstem : stem.states.length = stem.actions.length
  · by_cases hcycle : ss.length = as.length
    · match ss, as, hcycle with
      | [], [], _ => simp [hstem]
      | head :: ss, a :: as, hcycle =>
        have hlinked : (Lasso.map Execution.departures ⟨stem, ⟨head :: ss, a :: as⟩⟩).Linked
            S.Arrives ↔ _ := Lasso.linked_cons_iff
        simp only [hstem, hcycle, hlinked, ne_eq, not_true_eq_false, if_false, List.head?_cons,
          Option.or_eq_none_iff, Option.map_eq_none_iff, reduceCtorEq, not_false_eq_true, true_and,
          brokenTransition?_eq_none_iff_isChain (Nat.le_of_eq hstem),
          brokenTransition?_eq_none_iff_isChain (Nat.le_of_eq hcycle),
          notLeadingBy?_eq_none_iff hstem,
          notLeadingBy?_eq_none_iff (e := ⟨head :: ss, a :: as⟩) hcycle]
        rfl
    · simp [hstem, hcycle]
  · simp [hstem]

/-! ## Beginnings -/

theorem admits_beginning_iff {l : Lasso Execution}
    (hstem : l.stem.states.length = l.stem.actions.length)
    (hcycle : l.cycle.states.length = l.cycle.actions.length) (hne : l.cycle.states ≠ [])
    (n : Nat) :
    S.Admits (.execution (l.beginning (n + 1))) ↔
      ((l.map Execution.departures).unroll (n + 1)).IsChain S.Arrives := by
  have hne' : l.cycle.actions ≠ [] := by
    rw [← List.length_pos_iff, ← hcycle, List.length_pos_iff]
    exact hne
  have hstates : ((l.map Execution.states).unroll (n + 1)).length = n + 1 :=
    Lasso.length_unroll hne (n + 1)
  have hactions (m : Nat) : ((l.map Execution.actions).unroll m).length = m :=
    Lasso.length_unroll hne' m
  have hzip : (l.map Execution.departures).unroll (n + 1) =
      ((l.map Execution.states).unroll (n + 1)).zip ((l.map Execution.actions).unroll (n + 1)) :=
    Lasso.spin_zip hcycle (n + 1) _ _ hstem
  -- The check does not see the action at the last state, and with it each state has its own.
  have hlast : S.HasSteps ⟨(l.map Execution.states).unroll (n + 1),
      (l.map Execution.actions).unroll (n + 1)⟩ ↔
        S.HasSteps ⟨(l.map Execution.states).unroll (n + 1),
          (l.map Execution.actions).unroll n⟩ := by
    rw [Lasso.unroll_succ (l.map Execution.actions)]
    exact hasSteps_append_iff (by rw [hstates, hactions]) _
  rw [hzip, ← hasSteps_iff_isChain (by rw [hstates, hactions]), hlast,
    ← brokenTransition?_eq_none_iff (k := 0), Admits, fragmentViolation?, executionViolation?,
    Lasso.beginning, Nat.add_sub_cancel, ← Lasso.unroll_eq_take, ← Lasso.unroll_eq_take, hstates,
    hactions, if_pos rfl]

theorem admits_executionLasso_iff_beginning {l : Lasso Execution} :
    S.Admits (.executionLasso l) ↔
      l.stem.states.length = l.stem.actions.length ∧
        l.cycle.states.length = l.cycle.actions.length ∧ l.cycle.states ≠ [] ∧
        ∀ n, S.Admits (.execution (l.beginning (n + 1))) := by
  rw [admits_executionLasso_iff]
  refine and_congr_right fun hstem => and_congr_right fun hcycle => and_congr_right fun hne => ?_
  simp only [admits_beginning_iff hstem hcycle hne]
  rw [Lasso.linked_iff_forall_isChain_unroll (Execution.departures_ne_nil hcycle hne)]
  constructor
  · exact fun h n => h (n + 1)
  · intro h n
    cases n with
    | zero => exact .nil
    | succ n => exact h n

theorem admits_pathLasso_iff_take {l : Lasso Path} :
    S.Admits (.pathLasso l) ↔ l.cycle ≠ [] ∧ ∀ n, S.Admits (.path (l.take n)) := by
  rw [admits_pathLasso_iff]
  refine and_congr_right fun hne => ?_
  simp only [Lasso.linked_iff_forall_isChain_unroll hne, admits_path_iff, Lasso.unroll_eq_take]

/-- Whether a fragment is initial depends on its first state alone. -/
theorem isInitial_eq_of_head? {φ ψ : Fragment} (h : φ.visited.head? = ψ.visited.head?) :
    φ.isInitial S = ψ.isInitial S := by
  rw [Fragment.isInitial, Fragment.isInitial, h]

theorem isInitial_pathLasso (S : System) (l : Lasso Path) (n : Nat) :
    (Fragment.pathLasso l).isInitial S = (Fragment.path (l.take (n + 1))).isInitial S := by
  apply isInitial_eq_of_head?
  rw [Fragment.visited, Fragment.visited, ← Lasso.unroll_eq_take, Lasso.head?_unroll_succ]

theorem isInitial_executionLasso (S : System) (l : Lasso Execution) (n : Nat) :
    (Fragment.executionLasso l).isInitial S =
      (Fragment.execution (l.beginning (n + 1))).isInitial S :=
  isInitial_pathLasso S (l.map Execution.path) n

theorem trace_take (S : System) (l : Lasso Path) (n : Nat) :
    (Fragment.path (l.take n)).trace S =
      .finite (((Fragment.pathLasso l).trace S).unroll n) := by
  rw [Fragment.trace, Fragment.trace, Trace.unroll, ← Lasso.unroll_eq_take, Lasso.unroll_map]

theorem trace_beginning (S : System) (l : Lasso Execution) (n : Nat) :
    (Fragment.execution (l.beginning n)).trace S =
      .finite (((Fragment.executionLasso l).trace S).unroll n) :=
  trace_take S (l.map Execution.path) n

/-- **A lasso is admitted if and only if all its beginnings are.** It starts as they do, and its
trace begins with theirs. -/
theorem admits_lasso_iff_beginnings (S : System) :
    (∀ l : Lasso Execution, S.Admits (.executionLasso l) ↔
      l.stem.states.length = l.stem.actions.length ∧
        l.cycle.states.length = l.cycle.actions.length ∧ l.cycle.states ≠ [] ∧
        ∀ n, S.Admits (.execution (l.beginning (n + 1)))) ∧
    (∀ l : Lasso Path, S.Admits (.pathLasso l) ↔
      l.cycle ≠ [] ∧ ∀ n, S.Admits (.path (l.take n))) ∧
    (∀ (l : Lasso Execution) (n : Nat),
      (Fragment.executionLasso l).isInitial S =
          (Fragment.execution (l.beginning (n + 1))).isInitial S ∧
        (Fragment.execution (l.beginning n)).trace S =
          .finite (((Fragment.executionLasso l).trace S).unroll n)) ∧
    (∀ (l : Lasso Path) (n : Nat),
      (Fragment.pathLasso l).isInitial S = (Fragment.path (l.take (n + 1))).isInitial S ∧
        (Fragment.path (l.take n)).trace S =
          .finite (((Fragment.pathLasso l).trace S).unroll n)) :=
  ⟨fun _ => admits_executionLasso_iff_beginning, fun _ => admits_pathLasso_iff_take,
    fun l n => ⟨isInitial_executionLasso S l n, trace_beginning S l n⟩,
    fun l n => ⟨isInitial_pathLasso S l n, trace_take S l n⟩⟩

end System
end TransitionSystems
