import TransitionSystems.System.Classes
import TransitionSystems.Trace

/-!
Fragments of runs. A path records the states that a run visits, an execution also the actions
between them. Endless runs are given as lassos of either. A finite execution has one action less
than states; in a lasso both parts have as many actions as states, since the last action of each
part leads to the first state of the cycle.
-/
namespace TransitionSystems

abbrev Path := List State

structure Execution where
  states : List State
  actions : List Action
deriving DecidableEq

/-- Forgets the actions. -/
def Execution.path (e : Execution) : Path := e.states

/-- The steps of the execution: the states before and after, and the action between them. Where
there is no next state or no action there is no step. -/
def Execution.steps (e : Execution) : List (State × Action × State) :=
  e.states.zip (e.actions.zip e.states.tail)

theorem Execution.steps_cons_cons (s t : State) (ss : List State) (a : Action) (as : List Action) :
    steps ⟨s :: t :: ss, a :: as⟩ = (s, a, t) :: steps ⟨t :: ss, as⟩ :=
  rfl

theorem Execution.getElem?_steps_eq_some_iff {e : Execution} {i : Nat} {s t : State} {a : Action} :
    e.steps[i]? = some (s, a, t) ↔
      e.states[i]? = some s ∧ e.actions[i]? = some a ∧ e.states[i + 1]? = some t := by
  simp [steps, List.getElem?_zip_eq_some]

/-- An action at the last state or after it takes no step. -/
theorem Execution.steps_append {ss : List State} {as : List Action}
    (hlen : ss.length ≤ as.length + 1) (bs : List Action) :
    steps ⟨ss, as ++ bs⟩ = steps ⟨ss, as⟩ := by
  refine List.ext_getElem? fun i => Option.ext ?_
  rintro ⟨s, a, t⟩
  rw [getElem?_steps_eq_some_iff, getElem?_steps_eq_some_iff]
  refine and_congr_right fun _ => and_congr_left fun ht => ?_
  have hi : i + 1 < ss.length := (List.getElem?_eq_some_iff.mp ht).1
  rw [List.getElem?_append_left (by omega)]

inductive Fragment
  | path (path : Path)
  | execution (execution : Execution)
  | pathLasso (lasso : Lasso Path)
  | executionLasso (lasso : Lasso Execution)
deriving DecidableEq

namespace Fragment

/-- The states of the fragment in order, those that repeat for ever in one round only. -/
def visited : Fragment → List State
  | path p => p
  | execution e => e.path
  | pathLasso l => l.lap
  | executionLasso l => (l.map Execution.path).lap

/-- It starts in an initial state. -/
def isInitial (S : System) (f : Fragment) : Bool := f.visited.head?.any S.isInitial

/-- It goes on for ever, or ends in a terminal state. -/
def isMaximal (S : System) : Fragment → Bool
  | path p => p.getLast?.any S.isTerminal
  | execution e => e.path.getLast?.any S.isTerminal
  | pathLasso _ => true
  | executionLasso _ => true

/-- It is a complete run, from an initial state for as long as it can go on. -/
def isRun (S : System) (f : Fragment) : Bool := f.isInitial S && f.isMaximal S

def trace (S : System) : Fragment → Trace
  | path p => .finite (p.map S.label)
  | execution e => .finite (e.path.map S.label)
  | pathLasso l => .lasso (l.map (·.map S.label))
  | executionLasso l => .lasso (l.map (·.path.map S.label))

/-- The trace shows the labels of the visited states. -/
theorem shown_trace (S : System) (f : Fragment) :
    (f.trace S).shown = f.visited.map S.label := by
  cases f with
  | path p => rfl
  | execution e => rfl
  | pathLasso l => exact List.map_append.symm
  | executionLasso l => exact List.map_append.symm

end Fragment
end TransitionSystems
