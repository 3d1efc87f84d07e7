import TransitionSystems.Fault
import TransitionSystems.Grid

/-!
Deterministic Rabin automata. The letters are propositions, and a state and a letter have at most
one successor. A run is accepted by a pair of sets of states if it visits the one finitely and the
other infinitely often. `RabinAutomaton.violation?` reports the first use of something undeclared:
the initial state; then the moves in ascending order of their sources, source before letters and
each letter before its successor; then the acceptance pairs in order.
-/
namespace TransitionSystems

structure AcceptancePair where
  finitelyOften : List State
  infinitelyOften : List State
deriving DecidableEq

structure RabinAutomaton where
  states : List State
  initial : State
  alphabet : List Proposition
  moves : Grid State Proposition State
  acceptance : List AcceptancePair
deriving DecidableEq

namespace RabinAutomaton

/-- Moves of one source are merged, and a later move with the same letter replaces an earlier
one. -/
def ofEntries (states : List State) (initial : State) (alphabet : List Proposition)
    (moves : List (State × List (Proposition × State))) (acceptance : List AcceptancePair) :
    RabinAutomaton where
  states := states
  initial := initial
  alphabet := alphabet
  moves := .ofRows moves
  acceptance := acceptance

def next? (A : RabinAutomaton) (s : State) (x : Proposition) : Option State := A.moves.at? s x

/-- The state after reading a word from `s`, if there is a move for every letter. -/
def read? (A : RabinAutomaton) (s : State) : List Proposition → Option State
  | [] => some s
  | x :: xs => (A.next? s x).bind (A.read? · xs)

def initialViolation? (A : RabinAutomaton) : Option Violation :=
  if A.initial ∈ A.states then none else some (.undeclaredInitial A.initial)

def entryViolation? (A : RabinAutomaton) (s : State) (entry : Proposition × State) :
    Option Violation :=
  if entry.1 ∉ A.alphabet then some (.undeclaredSymbol s entry.1)
  else if entry.2 ∉ A.states then some (.undeclaredSuccessor s entry.1 entry.2)
  else none

def moveViolation? (A : RabinAutomaton) : Option Violation :=
  A.moves.rows.findSome? fun row =>
    if row.1 ∈ A.states then row.2.findSome? (A.entryViolation? row.1)
    else some (.undeclaredSource row.1)

def acceptanceViolation? (A : RabinAutomaton) : Option Violation :=
  A.acceptance.zipIdx.findSome? fun (pair, i) =>
    ((pair.finitelyOften.find? (· ∉ A.states)).map (.undeclaredAccepting i .finitelyOften)).or
      ((pair.infinitelyOften.find? (· ∉ A.states)).map (.undeclaredAccepting i .infinitelyOften))

def violation? (A : RabinAutomaton) : Option Violation :=
  A.initialViolation?.or (A.moveViolation?.or A.acceptanceViolation?)

/-- The automaton itself, provided that it uses declared names only. -/
def validate (A : RabinAutomaton) : Except Violation RabinAutomaton :=
  match A.violation? with
  | none => .ok A
  | some v => .error v

end RabinAutomaton
end TransitionSystems
