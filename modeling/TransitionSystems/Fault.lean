import TransitionSystems.Alphabet
import TransitionSystems.State

/-!
What can be wrong with a system, a partition, a fragment or an automaton, and how it is reported. A
violation is one broken rule together with the values that break it. A fault is the reason why a
construction has no result: a violation, or operands that are invalid themselves. A misuse is a
request that is refused whatever the data are: what is asked for cannot be built.
-/
namespace TransitionSystems

/-- The two sets of an acceptance pair. -/
inductive AcceptanceHalf
  | finitelyOften
  | infinitelyOften
deriving DecidableEq

def AcceptanceHalf.text : AcceptanceHalf → String
  | .finitelyOften => "E"
  | .infinitelyOften => "F"

inductive Violation
  -- systems and automata use only what they declare
  | undeclaredInitial (state : State)
  | undeclaredSource (state : State)
  | undeclaredAction (source : State) (action : Action)
  | undeclaredTarget (source : State) (action : Action) (target : State)
  | undeclaredLabelled (state : State)
  | undeclaredProposition (state : State) (proposition : Proposition)
  | undeclaredSymbol (source : State) (symbol : Proposition)
  | undeclaredSuccessor (source : State) (symbol : Proposition) (target : State)
  | undeclaredAccepting (index : Nat) (half : AcceptanceHalf) (state : State)
  -- blocks split the declared states
  | emptyBlock (index : Nat)
  | foreignState (block : Nat) (state : State)
  | uncoveredState (state : State)
  | overlappingBlocks (first second : Nat) (state : State)
  | mixedLabels (block : Nat) (first other : State)
  -- fragments follow the moves of their system
  | executionShape (states actions : Nat)
  | stemShape (states actions : Nat)
  | cycleShape (states actions : Nat)
  | emptyCycle
  | brokenTransition (index : Nat) (source : State) (action : Action) (target : State)
  | brokenStep (index : Nat) (source target : State)
  | brokenJoin (source target : State)
  | brokenLoop (source target : State)
deriving DecidableEq

def Violation.message : Violation → String
  | .undeclaredInitial s => s!"initial state \"{s.text}\" is not in the state set"
  | .undeclaredSource s =>
    s!"source state \"{s.text}\" of the transition relation is not in the state set"
  | .undeclaredAction s a =>
    s!"action \"{a.text}\" used by state \"{s.text}\" is not in the action set"
  | .undeclaredTarget s a t =>
    s!"target state \"{t.text}\" of transition ({s.text}, {a.text}) is not in the state set"
  | .undeclaredLabelled s => s!"labeled state \"{s.text}\" is not in the state set"
  | .undeclaredProposition s p =>
    s!"proposition \"{p.name}\" in the label of state \"{s.text}\" is not " ++
      "an atomic proposition of the system"
  | .undeclaredSymbol s x =>
    s!"symbol \"{x.name}\" used by state \"{s.text}\" is not in the alphabet"
  | .undeclaredSuccessor s x t =>
    s!"successor \"{t.text}\" of ({s.text}, {x.name}) is not in the state set"
  | .undeclaredAccepting i h s =>
    s!"component {h.text} of omega pair {i} contains \"{s.text}\", which is not in the state set"
  | .emptyBlock i => s!"invalid partition: block {i} is empty"
  | .foreignState i s =>
    s!"invalid partition: state \"{s.text}\" in block {i} is not in the state set"
  | .uncoveredState s => s!"invalid partition: state \"{s.text}\" is not covered by any block"
  | .overlappingBlocks i j s =>
    s!"invalid partition: blocks {i} and {j} share state \"{s.text}\""
  | .mixedLabels i s t =>
    s!"partition is not observation preserving: states \"{s.text}\" " ++
      s!"and \"{t.text}\" in block {i} have different labels"
  | .executionShape n m =>
    s!"fragment has {n} states, so it needs {n - 1} actions, but has {m}"
  | .stemShape n m =>
    s!"prefix must have as many states as actions, but has {n} states and {m} actions"
  | .cycleShape n m =>
    s!"suffix must have as many states as actions, but has {n} states and {m} actions"
  | .emptyCycle => "repeating suffix is empty"
  | .brokenTransition i s a t =>
    s!"invalid transition at index {i}: \"{t.text}\" is not in Post(\"{s.text}\", \"{a.text}\")"
  | .brokenStep i s t => s!"invalid step at index {i}: \"{t.text}\" is not in Post(\"{s.text}\")"
  | .brokenJoin s t =>
    s!"invalid join from prefix to suffix: \"{t.text}\" is not a successor of \"{s.text}\""
  | .brokenLoop s t =>
    s!"invalid loop closing the suffix: \"{t.text}\" is not a successor of \"{s.text}\""

inductive Fault
  | violation (v : Violation)
  /-- A composition was asked for, and each side has the fault given for it, if any. -/
  | invalidOperands (left right : Option Fault)

namespace Fault

def message : Fault → String
  | violation v => v.message
  | invalidOperands left right =>
    let l := match left with | none => "ok" | some f => f.message
    let r := match right with | none => "ok" | some f => f.message
    s!"cannot interleave invalid systems (left: {l}, right: {r})"

mutual

def decEq : (f g : Fault) → Decidable (f = g)
  | violation v, violation w => decidable_of_iff (v = w) (by simp)
  | invalidOperands l r, invalidOperands l' r' =>
    have := decEqOption l l'
    have := decEqOption r r'
    decidable_of_iff (l = l' ∧ r = r') (by simp)
  | violation _, invalidOperands _ _ => .isFalse nofun
  | invalidOperands _ _, violation _ => .isFalse nofun

def decEqOption : (f g : Option Fault) → Decidable (f = g)
  | none, none => .isTrue rfl
  | some f, some g =>
    have := decEq f g
    decidable_of_iff (f = g) (by simp)
  | none, some _ => .isFalse nofun
  | some _, none => .isFalse nofun

end

instance : DecidableEq Fault := decEq

end Fault

inductive Misuse
  /-- All subsets of `size` elements were asked for, which are too many to list. -/
  | tooManySubsets (size : Nat)
  /-- The two parts of a lasso were taken from different systems. -/
  | partsOfDifferentSystems
deriving DecidableEq

def Misuse.message : Misuse → String
  | .tooManySubsets size => s!"Powerset of {size} elements is too large"
  | .partsOfDifferentSystems => "Prefix and suffix must belong to the same system"

end TransitionSystems
