import TransitionSystems.Fragment.Basic

/-!
Systems kept under names. What is taken from a system, such as one of its states or a part of a run,
remembers the name; two things belong together only if they come from one name, even where equal
systems are kept under two.
-/
namespace TransitionSystems

/-- Something that belongs to the system kept under the name `owner`. -/
structure Owned (α : Type) where
  owner : String
  value : α
deriving DecidableEq

namespace Owned

variable {α β γ : Type}

def map (f : α → β) (x : Owned α) : Owned β := ⟨x.owner, f x.value⟩

/-- A lasso is made of two parts that belong to one system. -/
def lasso (stem cycle : Owned α) : Except Misuse (Owned (Lasso α)) :=
  if stem.owner = cycle.owner then .ok ⟨cycle.owner, ⟨stem.value, cycle.value⟩⟩
  else .error .partsOfDifferentSystems

end Owned

/-- A declared state of a system that is kept under a name. -/
abbrev Handle := Owned State

structure Workspace where
  systems : Table String System
deriving DecidableEq

/-- No system is kept under the name that was asked for. -/
structure UnknownSystem where
  name : String
deriving DecidableEq

namespace Workspace

def empty : Workspace := ⟨∅⟩

def find (w : Workspace) (name : String) : Except UnknownSystem System :=
  match w.systems[name]? with
  | some S => .ok S
  | none => .error ⟨name⟩

/-- Keeps `S` under `name` in place of what was kept there before. -/
def keep (w : Workspace) (name : String) (S : System) : Workspace :=
  ⟨w.systems.insert name S⟩

/-- The handle of a state, if the system kept under `name` declares it. -/
def handle? (w : Workspace) (name : String) (s : State) :
    Except UnknownSystem (Option Handle) :=
  (w.find name).map fun S => if S.declares s then some ⟨name, s⟩ else none

end Workspace
end TransitionSystems
