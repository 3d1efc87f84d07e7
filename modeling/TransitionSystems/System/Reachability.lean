import TransitionSystems.System.Basic

/-!
Reachability from the initial states, forwards for all states at once and backwards for a single
one, by breadth-first search along a function `next` that lists the neighbours of an element. A
search knows what it has found and which of that is new since the last round; one round replaces the
new elements by those of their neighbours that had not been found before. Whatever is found is
listed once, in the order in which it is found. Each round but the last finds something, so the
number of states that can be found at all bounds the rounds.
-/
namespace TransitionSystems

/-- Where a search stands: all that it has found, and what the last round has added. -/
structure Search (α : Type) where
  found : List α
  frontier : List α
deriving DecidableEq

namespace Search

variable {α : Type} [DecidableEq α]

def start (xs : List α) : Search α := ⟨xs.eraseDups, xs.eraseDups⟩

def neighbours (next : α → List α) (s : Search α) : List α :=
  (s.frontier.flatMap next).eraseDups

def advance (next : α → List α) (s : Search α) : Search α :=
  let fresh := (s.neighbours next).filter (· ∉ s.found)
  ⟨s.found ++ fresh, fresh⟩

def rounds (next : α → List α) : Nat → Search α → Search α
  | 0, s => s
  | n + 1, s => rounds next n (s.advance next)

/-- Whether a neighbour of a frontier meets the goal within `n` rounds. The search stops as soon as
one does. -/
def meets (next : α → List α) (goal : α → Bool) : Nat → Search α → Bool
  | 0, _ => false
  | n + 1, s => (s.neighbours next).any goal || meets next goal n (s.advance next)

theorem mem_neighbours {next : α → List α} {s : Search α} {x : α} :
    x ∈ s.neighbours next ↔ ∃ y ∈ s.frontier, x ∈ next y := by
  simp [neighbours, List.mem_eraseDups]

theorem mem_found_advance {next : α → List α} {s : Search α} {x : α} :
    x ∈ (s.advance next).found ↔ x ∈ s.found ∨ ∃ y ∈ s.frontier, x ∈ next y := by
  simp only [advance, List.mem_append, List.mem_filter, mem_neighbours, decide_eq_true_eq]
  by_cases h : x ∈ s.found <;> simp [h]

theorem mem_frontier_advance {next : α → List α} {s : Search α} {x : α} :
    x ∈ (s.advance next).frontier ↔ (∃ y ∈ s.frontier, x ∈ next y) ∧ x ∉ s.found := by
  simp [advance, mem_neighbours]

/-- Nothing is found twice. -/
theorem nodup_advance {next : α → List α} {s : Search α} (h : s.found.Nodup) :
    (s.advance next).found.Nodup := by
  rw [advance, List.nodup_append]
  refine ⟨h, (ListSet.nodup_eraseDups _).filter _, ?_⟩
  rintro x hx y hy rfl
  simp [hx] at hy

end Search

/-! ## Systems -/

namespace System

/-- Forwards, only initial states and stored targets can be found. -/
def forwardRounds (S : System) : Nat := S.initial.length + S.moveCount

/-- Backwards, only the state asked about and declared states can be found. -/
def backwardRounds (S : System) : Nat := S.states.length + 1

def forwardSearch (S : System) : Search State :=
  Search.rounds S.successors S.forwardRounds (.start S.initial)

/-- The states that runs can get to, nearest to the initial states first. -/
def reachableStates (S : System) : List State := S.forwardSearch.found

/-- Searches backwards for an initial state. -/
def isReachable (S : System) (s : State) : Bool :=
  S.isInitial s || Search.meets S.predecessors S.isInitial S.backwardRounds (.start [s])

end System
end TransitionSystems
