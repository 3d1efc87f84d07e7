import TransitionSystems.System.Basic

/-!
Classes of states and of systems. A state can be terminal. A system may belong to those whose
actions, or whose labels, tell where a step leads, and to those that can always take every action.
The tests look at declared states and actions only.
-/
namespace TransitionSystems.System

/-- No declared action leads anywhere from `s`. -/
def isTerminal (S : System) (s : State) : Bool := (S.successors s).isEmpty

/-- At most one initial state is listed, and no action has two successors. -/
def isActionDeterministic (S : System) : Bool :=
  S.initial.length ≤ 1 &&
    S.states.all fun s => S.actions.all fun a => (S.successorsBy s a).length ≤ 1

/-- At most one initial state is listed, and no two successors of a state have labels that agree. -/
def isLabelDeterministic (S : System) : Bool :=
  S.initial.length ≤ 1 &&
    S.states.all fun s => (S.successors s).Pairwise fun t u => ¬(S.label t).agrees (S.label u)

/-- Every state has a successor under every action. -/
def isNonBlocking (S : System) : Bool :=
  S.states.all fun s => S.actions.all fun a => !(S.successorsBy s a).isEmpty

/-- A state and an action leave no choice of the next state. -/
def ActionsDecide (S : System) : Prop :=
  ∀ s a, ∀ t ∈ S.successorsBy s a, ∀ u ∈ S.successorsBy s a, t = u

/-- A state and the label seen next leave no choice of the next state. -/
def LabelsDecide (S : System) : Prop :=
  ∀ s, ∀ t ∈ S.successors s, ∀ u ∈ S.successors s, (S.label t).agrees (S.label u) = true → t = u

/-- The action can be taken in every declared state. -/
def NeverBlocks (S : System) (a : Action) : Prop := ∀ s ∈ S.states, S.successorsBy s a ≠ []

variable {S : System}

theorem isTerminal_iff {s : State} :
    S.isTerminal s = true ↔ ∀ t, t ∉ S.successors s := by
  rw [isTerminal, List.isEmpty_iff, List.eq_nil_iff_forall_not_mem]

theorem isNonBlocking_iff :
    S.isNonBlocking = true ↔ ∀ s ∈ S.states, ∀ a ∈ S.actions, ∃ t, t ∈ S.successorsBy s a := by
  simp only [isNonBlocking, List.all_eq_true, Bool.not_eq_true',
    List.isEmpty_eq_false_iff_exists_mem]

theorem isNonBlocking_iff_neverBlocks :
    S.isNonBlocking = true ↔ ∀ a ∈ S.actions, S.NeverBlocks a := by
  simp only [isNonBlocking, List.all_eq_true, Bool.not_eq_true', List.isEmpty_eq_false_iff]
  exact ⟨fun h a ha s hs => h s hs a ha, fun h s hs a ha => h a ha s hs⟩

end TransitionSystems.System
