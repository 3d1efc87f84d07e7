import Mathlib.Data.List.Forall2
import TransitionSystems.Proofs.Lassos.Unrolling
import TransitionSystems.Proofs.Reachability

/-!
Simulations by renaming. If the states of a system are renamed in such a way that another system can
start where it starts and step where it steps, then the other system admits all its fragments,
finite or endless (`SimulatedBy.admits`), reaches all that it reaches (`SimulatedBy.reachable`) and,
where the labels agree as well, shows the same traces (`agrees_trace_map`).
-/
namespace TransitionSystems

def Execution.map (f : State → State) (e : Execution) : Execution := ⟨e.states.map f, e.actions⟩

/-- The fragment with its states renamed and its actions kept. -/
def Fragment.map (f : State → State) : Fragment → Fragment
  | path p => path (p.map f)
  | execution e => execution (e.map f)
  | pathLasso l => pathLasso (l.map (List.map f))
  | executionLasso l => executionLasso (l.map (Execution.map f))

/-- Traces of one shape whose labels agree, position by position. -/
def Trace.Agrees : Trace → Trace → Prop
  | finite ls, finite ms => List.Forall₂ (fun l m => l.agrees m = true) ls ms
  | lasso l, lasso m =>
    List.Forall₂ (fun l m => l.agrees m = true) l.stem m.stem ∧
      List.Forall₂ (fun l m => l.agrees m = true) l.cycle m.cycle
  | _, _ => False

theorem Fragment.visited_map (f : State → State) (φ : Fragment) :
    (φ.map f).visited = φ.visited.map f := by
  cases φ with
  | path p => rfl
  | execution e => rfl
  | pathLasso l => exact List.map_append.symm
  | executionLasso l => exact List.map_append.symm

theorem Lasso.take_map {α β : Type} (f : α → β) (l : Lasso (List α)) (n : Nat) :
    (l.map (List.map f)).take n = (l.take n).map f := by
  rw [← unroll_eq_take, ← unroll_eq_take, unroll_map]

theorem Lasso.beginning_map (f : State → State) (l : Lasso Execution) (n : Nat) :
    (l.map (Execution.map f)).beginning n = (l.beginning n).map f :=
  congrArg (Execution.mk · _) (take_map f (l.map Execution.states) n)

namespace System

/-- Renamed by `f`, initial states of `S` are initial in `T` and steps of `S` are steps of `T`. -/
structure SimulatedBy (f : State → State) (S T : System) : Prop where
  initial : ∀ s ∈ S.initial, f s ∈ T.initial
  actions : ∀ a ∈ S.actions, a ∈ T.actions
  step : ∀ s a, ∀ t ∈ S.successorsBy s a, f t ∈ T.successorsBy (f s) a

variable {f : State → State} {S T : System} {s t : State} {φ : Fragment}

theorem SimulatedBy.successor (h : SimulatedBy f S T) (ht : t ∈ S.successors s) :
    f t ∈ T.successors (f s) := by
  obtain ⟨a, ha, hstep⟩ := mem_successors.mp ht
  exact mem_successors.mpr ⟨a, h.actions a ha, h.step s a t hstep⟩

theorem SimulatedBy.reachable (h : SimulatedBy f S T) (hs : S.Reachable s) : T.Reachable (f s) :=
  hs.induction (P := fun s => T.Reachable (f s)) (fun s hs => .initial (h.initial s hs))
    fun _ hreach _ hstep => hreach.step (h.successor hstep)

/-! ## Fragments -/

theorem SimulatedBy.run (h : SimulatedBy f S T) {ss : List State} {as : List Action}
    (hrun : S.Run ss as) : T.Run (ss.map f) as := by
  induction hrun with
  | single s => exact .single (f s)
  | step hstep _ ih => exact .step (h.step _ _ _ hstep) ih

theorem SimulatedBy.admits_execution (h : SimulatedBy f S T) {e : Execution}
    (he : S.Admits (.execution e)) : T.Admits (.execution (e.map f)) :=
  admits_execution_iff.mpr (h.run (admits_execution_iff.mp he))

theorem SimulatedBy.admits_path (h : SimulatedBy f S T) {p : Path} (hp : S.Admits (.path p)) :
    T.Admits (.path (p.map f)) := by
  rw [admits_path_iff] at hp ⊢
  exact List.isChain_map_of_isChain f (fun _ _ ht => h.successor ht) hp

/-- Each beginning of an endless run is simulated, and with them the run. -/
theorem SimulatedBy.admits_executionLasso (h : SimulatedBy f S T) {l : Lasso Execution}
    (hl : S.Admits (.executionLasso l)) : T.Admits (.executionLasso (l.map (Execution.map f))) := by
  rw [admits_executionLasso_iff_beginning] at hl ⊢
  obtain ⟨hstem, hcycle, hne, hbeginning⟩ := hl
  refine ⟨?_, ?_, ?_, ?_⟩
  · simpa [Lasso.map, Execution.map] using hstem
  · simpa [Lasso.map, Execution.map] using hcycle
  · exact fun hnil => hne (List.map_eq_nil_iff.mp hnil)
  · intro n
    rw [Lasso.beginning_map]
    exact h.admits_execution (hbeginning n)

theorem SimulatedBy.admits_pathLasso (h : SimulatedBy f S T) {l : Lasso Path}
    (hl : S.Admits (.pathLasso l)) : T.Admits (.pathLasso (l.map (List.map f))) := by
  rw [admits_pathLasso_iff_take] at hl ⊢
  obtain ⟨hne, htake⟩ := hl
  refine ⟨fun hnil => hne (List.map_eq_nil_iff.mp hnil), fun n => ?_⟩
  rw [Lasso.take_map]
  exact h.admits_path (htake n)

theorem SimulatedBy.admits (h : SimulatedBy f S T) (hφ : S.Admits φ) : T.Admits (φ.map f) := by
  cases φ with
  | path p => exact h.admits_path hφ
  | execution e => exact h.admits_execution hφ
  | pathLasso l => exact h.admits_pathLasso hφ
  | executionLasso l => exact h.admits_executionLasso hφ

theorem SimulatedBy.isInitial_map (h : SimulatedBy f S T) (hφ : φ.isInitial S = true) :
    (φ.map f).isInitial T = true := by
  rw [Fragment.isInitial, Option.any_eq_true] at hφ ⊢
  obtain ⟨s, hs, hinit⟩ := hφ
  refine ⟨f s, by rw [Fragment.visited_map, List.head?_map, hs, Option.map_some], ?_⟩
  exact decide_eq_true (h.initial s (of_decide_eq_true hinit))

/-! ## Traces -/

theorem forall₂_label_map {ss : List State}
    (h : ∀ s ∈ ss, (S.label s).agrees (T.label (f s)) = true) :
    List.Forall₂ (fun l m : Label => l.agrees m = true) (ss.map S.label)
      ((ss.map f).map T.label) := by
  rw [List.map_map, List.forall₂_map_left_iff, List.forall₂_map_right_iff]
  exact List.forall₂_same.mpr h

theorem agrees_trace_map (h : ∀ s ∈ φ.visited, (S.label s).agrees (T.label (f s)) = true) :
    (φ.trace S).Agrees ((φ.map f).trace T) := by
  cases φ with
  | path p => exact forall₂_label_map h
  | execution e => exact forall₂_label_map h
  | pathLasso l =>
    exact ⟨forall₂_label_map fun s hs => h s (List.mem_append_left _ hs),
      forall₂_label_map fun s hs => h s (List.mem_append_right _ hs)⟩
  | executionLasso l =>
    exact ⟨forall₂_label_map fun s hs => h s (List.mem_append_left _ hs),
      forall₂_label_map fun s hs => h s (List.mem_append_right _ hs)⟩

end System
end TransitionSystems
