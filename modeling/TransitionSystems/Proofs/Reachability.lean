import Mathlib.Tactic.TFAE
import TransitionSystems.Catalogue
import TransitionSystems.Proofs.Runs
import TransitionSystems.System.Reachability

/-!
Reachable states. The forward search lists just the states that steps lead to from an initial state,
whatever the system (`mem_reachableStates`); for a valid system the backward search gives the same
answer for each state (`isReachable_iff`), and so do the executions of the system
(`reachability_tfae`).
-/
namespace TransitionSystems.System

/-- Some sequence of steps leads from an initial state to `s`. -/
def Reachable (S : System) (s : State) : Prop := ∃ i ∈ S.initial, Search.Leads S.successors i s

variable {S : System} {s t : State}

theorem Reachable.initial (h : s ∈ S.initial) : S.Reachable s := ⟨s, h, .refl⟩

theorem Reachable.step (h : S.Reachable s) (ht : t ∈ S.successors s) : S.Reachable t := by
  obtain ⟨i, hi, hs⟩ := h
  exact ⟨i, hi, hs.tail ht⟩

/-- What holds of the initial states and is preserved by steps holds of all reachable states. -/
theorem Reachable.induction {P : State → Prop} (hinit : ∀ s ∈ S.initial, P s)
    (hstep : ∀ s, P s → ∀ t ∈ S.successors s, P t) (h : S.Reachable s) : P s := by
  obtain ⟨i, hi, hs⟩ := h
  induction hs with
  | refl => exact hinit i hi
  | tail _ ht ih => exact hstep _ ih _ ht

theorem Reachable.declared (hS : S.Valid) (h : S.Reachable s) : s ∈ S.states :=
  h.induction hS.initial fun _ _ _ ht => hS.target_of_successor ht

/-! ## Forwards -/

theorem successors_within (h : t ∈ S.successors s) : t ∈ S.initial ++ S.storedTargets :=
  List.mem_append_right _ (mem_storedTargets_of_mem_successors h)

theorem length_le_forwardRounds (S : System) :
    (S.initial ++ S.storedTargets).length ≤ S.forwardRounds :=
  Nat.le_of_eq List.length_append

/-- The search for reachable states does not stop before it is over. -/
theorem frontier_forwardSearch (S : System) : S.forwardSearch.frontier = [] := by
  refine Search.frontier_rounds_eq_nil (Search.invariant_start _ _) ?_
    (fun _ _ _ ht => successors_within ht) S.length_le_forwardRounds
  intro s hs
  exact List.mem_append_left _ (List.mem_eraseDups.mp hs)

theorem mem_reachableStates : s ∈ S.reachableStates ↔ S.Reachable s :=
  Search.mem_found_rounds_start (fun _ hs => List.mem_append_left _ hs)
    (fun _ _ _ ht => successors_within ht) S.length_le_forwardRounds

theorem nodup_reachableStates (S : System) : S.reachableStates.Nodup :=
  ((Search.invariant_start S.successors S.initial).rounds _).nodup

/-! ## Backwards -/

theorem predecessors_within {p : State} (h : p ∈ S.predecessors t) : p ∈ s :: S.states :=
  List.mem_cons_of_mem s (mem_predecessors_iff.mp h).1

theorem length_le_backwardRounds (S : System) (s : State) :
    (s :: S.states).length ≤ S.backwardRounds :=
  Nat.le_refl _

theorem isReachable_iff_leads_back :
    S.isReachable s = true ↔ ∃ i ∈ S.initial, Search.Leads S.predecessors s i := by
  have hs : ∀ x ∈ [s], x ∈ s :: S.states := by
    intro x hx
    exact List.mem_cons.mpr (Or.inl (List.mem_singleton.mp hx))
  have hback : ∀ x ∈ s :: S.states, ∀ y ∈ S.predecessors x, y ∈ s :: S.states :=
    fun _ _ _ hy => predecessors_within hy
  have hstart : (Search.start [s]).found.any S.isInitial = S.isInitial s := by
    simp [Search.start, List.eraseDups_cons]
  have hsearch := Search.any_or_meets_start S.isInitial hs hback (S.length_le_backwardRounds s)
  rw [hstart] at hsearch
  refine Iff.trans hsearch ?_
  simp only [isInitial, decide_eq_true_eq, List.mem_singleton, exists_eq_left]

/-- Searching backwards is searching forwards along the same steps. -/
theorem isReachable_iff (hS : S.Valid) : S.isReachable s = true ↔ S.Reachable s := by
  have hback : (fun x y => y ∈ S.predecessors x) = Function.swap fun x y => y ∈ S.successors x := by
    funext x y
    exact propext (mem_predecessors_iff_of_sources hS.source)
  rw [isReachable_iff_leads_back, Search.Leads, hback]
  exact exists_congr fun i => and_congr_right fun _ => Relation.reflTransGen_swap

/-! ## Runs -/

theorem reachable_iff_exists_execution (hS : S.Valid) :
    S.Reachable s ↔ ∃ e : Execution, S.Admits (.execution e) ∧
      (Fragment.execution e).isInitial S = true ∧ e.states.getLast? = some s := by
  constructor
  · rintro ⟨i, hi, hs⟩
    obtain ⟨ss, as, hrun, hlast⟩ := exists_run_of_leads hs
    refine ⟨⟨i :: ss, as⟩, admits_execution_iff.mpr hrun, ?_, hlast⟩
    simpa [Fragment.isInitial, Fragment.visited, Execution.path, isInitial] using hi
  · rintro ⟨⟨ss, as⟩, hadmits, hinit, hlast⟩
    cases ss with
    | nil => simp at hlast
    | cons i ss =>
      have hi : i ∈ S.initial := by
        simpa [Fragment.isInitial, Fragment.visited, Execution.path, isInitial] using hinit
      exact ⟨i, hi, (admits_execution_iff.mp hadmits).leads hS rfl hlast⟩

/-- **Three ways to be reachable.** The backward search meets an initial state, the forward search
lists the state, and an initial execution ends in it. -/
theorem reachability_tfae (hS : S.Valid) (s : State) :
    [S.isReachable s = true,
      s ∈ S.reachableStates,
      ∃ e : Execution, S.Admits (.execution e) ∧ (Fragment.execution e).isInitial S = true ∧
        e.states.getLast? = some s].TFAE := by
  have hforward : S.isReachable s = true ↔ s ∈ S.reachableStates :=
    (isReachable_iff hS).trans mem_reachableStates.symm
  have hruns := mem_reachableStates.trans (reachable_iff_exists_execution hS (s := s))
  tfae_have 1 ↔ 2 := hforward
  tfae_have 2 ↔ 3 := hruns
  tfae_finish

/-- The initial state is declared twice and has a loop; the other two states form a cycle apart. -/
def looseCycle : System :=
  .ofEntries (State.ofNames ["1", "2", "1", "3"]) [⟨"a"⟩]
    [(.named "1", [(⟨"a"⟩, State.ofNames ["1", "1"])]),
      (.named "2", [(⟨"a"⟩, State.ofNames ["3"])]),
      (.named "3", [(⟨"a"⟩, State.ofNames ["2"])])]
    (State.ofNames ["1", "1"]) [] []

/-- The cycle apart is declared, but no run gets to it. -/
theorem reachability_tfae_looseCycle :
    looseCycle.Valid ∧ .named "3" ∈ looseCycle.states ∧
      looseCycle.isReachable (.named "3") = false ∧
      .named "3" ∉ looseCycle.reachableStates ∧
      (¬∃ e : Execution, looseCycle.Admits (.execution e) ∧
        (Fragment.execution e).isInitial looseCycle = true ∧
        e.states.getLast? = some (.named "3")) ∧
      ∃ e : Execution, looseCycle.Admits (.execution e) ∧
        (Fragment.execution e).isInitial looseCycle = true ∧
        e.states.getLast? = some (.named "1") := by
  have hvalid : looseCycle.Valid := by decide
  have hnot : looseCycle.isReachable (.named "3") = false := by decide
  have hapart := reachability_tfae hvalid (.named "3")
  have hinitial := reachability_tfae hvalid (.named "1")
  refine ⟨hvalid, by decide, hnot, ?_, ?_, (hinitial.out 0 2).mp (by decide)⟩
  · intro h
    exact absurd ((hapart.out 0 1).mpr h) (by decide)
  · intro h
    exact absurd ((hapart.out 0 2).mpr h) (by decide)

end TransitionSystems.System
