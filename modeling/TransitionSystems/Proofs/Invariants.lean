import TransitionSystems.Proofs.Lassos.Unrolling
import TransitionSystems.Proofs.Reachability

/-!
Invariants. A proposition holds in all reachable states if and only if it holds all along the trace
of each path that the system admits from an initial state; then it does so along all initial
fragments, executions and lassos included (`invariant_iff_always`). For the one direction, whatever
an admitted initial fragment visits can be reached (`reachable_of_mem_visited`); for the other, each
reachable state is on some path (`Reachable.exists_path`).
-/
namespace TransitionSystems

namespace System

variable {S : System} {s : State} {φ : Fragment}

theorem always_trace_iff {p : Proposition} :
    (φ.trace S).always p = true ↔ ∀ s ∈ φ.visited, S.satisfies s p = true := by
  rw [Trace.always_iff, Fragment.shown_trace]
  simp [satisfies]

/-! ## Soundness -/

theorem Run.isChain (hS : S.Valid) {ss : List State} {as : List Action} (h : S.Run ss as) :
    ss.IsChain fun s t => t ∈ S.successors s := by
  induction h with
  | single s => exact .singleton s
  | step hstep _ ih =>
    exact List.isChain_cons_cons.mpr ⟨hS.mem_successors_iff.mpr ⟨_, hstep⟩, ih⟩

/-- The states of a fragment follow each other. Those of a lasso are the first ones of its endless
run. -/
theorem isChain_visited (hS : S.Valid) (h : S.Admits φ) :
    φ.visited.IsChain fun s t => t ∈ S.successors s := by
  cases φ with
  | path π => exact admits_path_iff.mp h
  | execution e => exact (admits_execution_iff.mp h).isChain hS
  | pathLasso l =>
    have hpath := admits_path_iff.mp ((admits_pathLasso_iff_take.mp h).2 l.lap.length)
    rw [← Lasso.unroll_eq_take, Lasso.unroll_lap] at hpath
    exact hpath
  | executionLasso l =>
    obtain ⟨_, _, hne, hbeginning⟩ := admits_executionLasso_iff_beginning.mp h
    have hlap : (l.map Execution.states).lap ≠ [] := List.append_ne_nil_of_right_ne_nil _ hne
    obtain ⟨n, hn⟩ := Nat.exists_eq_add_one.mpr (List.length_pos_iff.mpr hlap)
    have hrun := (admits_execution_iff.mp (hbeginning n)).isChain hS
    rw [Lasso.beginning, ← hn, ← Lasso.unroll_eq_take, Lasso.unroll_lap] at hrun
    exact hrun

theorem reachable_of_mem_visited (hS : S.Valid) (h : S.Admits φ) (hinit : φ.isInitial S = true)
    (hs : s ∈ φ.visited) : S.Reachable s := by
  refine (isChain_visited hS h).induction S.Reachable _
    (fun _ _ ht hreach => hreach.step ht) ?_ s hs
  intro hne
  rw [Fragment.isInitial, List.head?_eq_some_head hne, Option.any_some] at hinit
  exact .initial (of_decide_eq_true hinit)

/-! ## Completeness -/

theorem Reachable.exists_path (h : S.Reachable s) :
    ∃ π, S.Admits (.path π) ∧ (Fragment.path π).isInitial S = true ∧ s ∈ π := by
  obtain ⟨i, hi, hs⟩ := h
  obtain ⟨ss, hchain, hlast⟩ := List.exists_isChain_cons_of_relationReflTransGen hs
  refine ⟨i :: ss, admits_path_iff.mpr hchain, decide_eq_true hi, ?_⟩
  rw [← hlast]
  exact List.getLast_mem _

/-- **Invariants and traces.** To check the reachable states is to check the traces of all initial
paths, and no other fragment can break what these keep. -/
theorem invariant_iff_always (hS : S.Valid) (p : Proposition) :
    ((∀ s ∈ S.reachableStates, S.satisfies s p = true) ↔
      ∀ π : Path, S.Admits (.path π) → (Fragment.path π).isInitial S = true →
        ((Fragment.path π).trace S).always p = true) ∧
    ((∀ s ∈ S.reachableStates, S.satisfies s p = true) →
      ∀ φ : Fragment, S.Admits φ → φ.isInitial S = true → (φ.trace S).always p = true) := by
  have hsound (hp : ∀ s ∈ S.reachableStates, S.satisfies s p = true) (φ : Fragment)
      (hφ : S.Admits φ) (hinit : φ.isInitial S = true) : (φ.trace S).always p = true :=
    always_trace_iff.mpr fun s hs =>
      hp s (mem_reachableStates.mpr (reachable_of_mem_visited hS hφ hinit hs))
  refine ⟨⟨fun hp π => hsound hp (.path π), ?_⟩, hsound⟩
  intro hpaths s hs
  obtain ⟨π, hπ, hinit, hmem⟩ := (mem_reachableStates.mp hs).exists_path
  exact always_trace_iff.mp (hpaths π hπ hinit) s hmem

/-- The only state without `p` cannot be reached. -/
def guardedLoop : System :=
  .ofEntries (State.ofNames ["1", "2", "3"]) [⟨"a"⟩]
    [(.named "1", [(⟨"a"⟩, State.ofNames ["2"])]),
      (.named "2", [(⟨"a"⟩, State.ofNames ["1", "2"])]),
      (.named "3", [(⟨"a"⟩, State.ofNames ["1"])])]
    (State.ofNames ["1"]) (Label.ofNames ["p", "q"])
    [(.named "1", Label.ofNames ["q", "p"]), (.named "2", Label.ofNames ["p", "p"])]

def guardedRounds : Lasso Execution :=
  ⟨⟨State.ofNames ["1"], [⟨"a"⟩]⟩, ⟨State.ofNames ["2", "2", "1"], [⟨"a"⟩, ⟨"a"⟩, ⟨"a"⟩]⟩⟩

theorem invariant_iff_always_guardedLoop :
    guardedLoop.Valid ∧ guardedLoop.satisfies (.named "3") ⟨"p"⟩ = false ∧
      (∀ s ∈ guardedLoop.reachableStates, guardedLoop.satisfies s ⟨"p"⟩ = true) ∧
      (∀ π : Path, guardedLoop.Admits (.path π) → (Fragment.path π).isInitial guardedLoop = true →
        ((Fragment.path π).trace guardedLoop).always ⟨"p"⟩ = true) ∧
      ((Fragment.executionLasso guardedRounds).trace guardedLoop).always ⟨"p"⟩ = true := by
  have hreach : ∀ s ∈ guardedLoop.reachableStates, guardedLoop.satisfies s ⟨"p"⟩ = true := by decide
  obtain ⟨hpaths, hall⟩ := invariant_iff_always (S := guardedLoop) (by decide) ⟨"p"⟩
  exact ⟨by decide, by decide, hreach, hpaths.mp hreach,
    hall hreach (.executionLasso guardedRounds) (by decide) (by decide)⟩

end System
end TransitionSystems
