import TransitionSystems.Fault
import TransitionSystems.Grid

/-!
Labelled transition systems. A system declares its states, actions and atomic propositions; says in
which states a run may start; stores for a state and an action the states that the action may lead
to; and labels states with the propositions that hold in them. All lists are kept as given, repeats
included. A system need not use declared names only: `System.Valid` says when it does.

A single step leads to the successors of a state and back to its predecessors, under one action or
under any. Successors are listed once each, in the order in which the actions and then the stored
targets list them. Predecessors are listed in the order of the declared states.
-/
namespace TransitionSystems

structure System where
  states : List State
  actions : List Action
  moves : Grid State Action (List State)
  initial : List State
  propositions : List Proposition
  labels : Table State Label
deriving DecidableEq

namespace System

/-- The targets stored for `s` and `a`, none if there is no entry. -/
def targets (S : System) (s : State) (a : Action) : List State := (S.moves.at? s a).getD []

/-- A state without a label is labelled with no proposition. -/
def label (S : System) (s : State) : Label := S.labels.getD s []

def satisfies (S : System) (s : State) (p : Proposition) : Bool := p ∈ S.label s

def declares (S : System) (s : State) : Bool := s ∈ S.states

def isInitial (S : System) (s : State) : Bool := s ∈ S.initial

/-- All stored targets, as often as they are stored. -/
def storedTargets (S : System) : List State := (Grid.places S.moves.rows).flatMap (·.2.2)

def moveCount (S : System) : Nat := S.storedTargets.length

/-- The system with the given parts. Moves of one source are merged, and a later entry for the same
source and action, or a later label for the same state, replaces an earlier one. -/
def ofEntries (states : List State) (actions : List Action)
    (moves : List (State × List (Action × List State))) (initial : List State)
    (propositions : List Proposition) (labels : List (State × Label)) : System where
  states := states
  actions := actions
  moves := .ofRows moves
  initial := initial
  propositions := propositions
  labels := .ofList labels compare

section
variable {S : System} {s t : State} {a : Action} {p : Proposition}

theorem targets_of_at? {ts : List State} (h : S.moves.at? s a = some ts) : S.targets s a = ts := by
  rw [targets, h, Option.getD_some]

theorem at?_of_mem_targets (h : t ∈ S.targets s a) : ∃ ts, S.moves.at? s a = some ts ∧ t ∈ ts := by
  unfold targets at h
  cases hs : S.moves.at? s a with
  | none => simp [hs] at h
  | some ts => exact ⟨ts, rfl, by simpa [hs] using h⟩

theorem label_of_getElem? {l : Label} (h : S.labels[s]? = some l) : S.label s = l := by
  rw [label, Std.ExtTreeMap.getD_eq_getD_getElem?, h, Option.getD_some]

theorem getElem?_of_mem_label (h : p ∈ S.label s) : ∃ l, S.labels[s]? = some l ∧ p ∈ l := by
  rw [label, Std.ExtTreeMap.getD_eq_getD_getElem?] at h
  cases hs : S.labels[s]? with
  | none => simp [hs] at h
  | some l => exact ⟨l, rfl, by simpa [hs] using h⟩

end

/-! ## Steps -/

def successorsBy (S : System) (s : State) (a : Action) : List State := (S.targets s a).eraseDups

/-- Only declared actions count. -/
def successors (S : System) (s : State) : List State :=
  (S.actions.flatMap (S.successorsBy s)).eraseDups

/-- A state that is declared repeatedly is listed as often. -/
def predecessorsBy (S : System) (s : State) (a : Action) : List State :=
  S.states.filter fun p => s ∈ S.targets p a

def predecessors (S : System) (s : State) : List State :=
  (S.actions.flatMap (S.predecessorsBy s)).eraseDups

theorem mem_successorsBy {S : System} {s t : State} {a : Action} :
    t ∈ S.successorsBy s a ↔ t ∈ S.targets s a := by
  simp [successorsBy, List.mem_eraseDups]

theorem mem_successors {S : System} {s t : State} :
    t ∈ S.successors s ↔ ∃ a ∈ S.actions, t ∈ S.successorsBy s a := by
  simp [successors, List.mem_eraseDups]

theorem mem_predecessorsBy {S : System} {s p : State} {a : Action} :
    p ∈ S.predecessorsBy s a ↔ p ∈ S.states ∧ s ∈ S.targets p a := by
  simp [predecessorsBy]

theorem mem_predecessors {S : System} {s p : State} :
    p ∈ S.predecessors s ↔ ∃ a ∈ S.actions, p ∈ S.predecessorsBy s a := by
  simp [predecessors, List.mem_eraseDups]

end System
end TransitionSystems
