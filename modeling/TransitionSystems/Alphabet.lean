import TransitionSystems.ListSet

/-!
Actions, atomic propositions and labels. Actions and propositions are known by their names alone,
and are ordered as their names are, by code points.
-/
namespace TransitionSystems

structure Action where
  name : String
deriving DecidableEq

/-- The internal action has the empty name. -/
def Action.silent : Action := ⟨""⟩

instance : Inhabited Action := ⟨.silent⟩

def Action.isSilent (a : Action) : Bool := a = .silent

/-- The silent action is written `ε`, any other action as its name. -/
def Action.text (a : Action) : String := if a.isSilent then "ε" else a.name

instance : Ord Action := ⟨compareOn Action.name⟩

instance : Std.TransOrd Action := inferInstanceAs (Std.TransCmp (compareOn Action.name))

instance : Std.LawfulEqOrd Action where
  eq_of_compare {_ _} h := congrArg Action.mk (Std.LawfulEqOrd.eq_of_compare h)

structure Proposition where
  name : String
deriving DecidableEq

instance : Ord Proposition := ⟨compareOn Proposition.name⟩

instance : Std.TransOrd Proposition := inferInstanceAs (Std.TransCmp (compareOn Proposition.name))

instance : Std.LawfulEqOrd Proposition where
  eq_of_compare {_ _} h := congrArg Proposition.mk (Std.LawfulEqOrd.eq_of_compare h)

/-- The propositions that hold in a state. What a label says does not depend on their order. -/
abbrev Label := List Proposition

namespace Label

def ofNames (names : List String) : Label := names.map Proposition.mk

/-- Both labels say that the same propositions hold. -/
def agrees (l m : Label) : Bool := ListSet.isSame l m

def text (l : Label) : String := "\x7b" ++ ", ".intercalate (l.map Proposition.name) ++ "\x7d"

theorem agrees_iff {l m : Label} : l.agrees m = true ↔ ∀ p, p ∈ l ↔ p ∈ m := ListSet.isSame_iff

theorem agrees_refl (l : Label) : l.agrees l = true := agrees_iff.2 fun _ => Iff.rfl

theorem agrees_symm {l m : Label} (h : l.agrees m = true) : m.agrees l = true :=
  agrees_iff.2 fun p => (agrees_iff.1 h p).symm

theorem agrees_trans {l m n : Label} (hlm : l.agrees m = true) (hmn : m.agrees n = true) :
    l.agrees n = true :=
  agrees_iff.2 fun p => (agrees_iff.1 hlm p).trans (agrees_iff.1 hmn p)

end Label
end TransitionSystems
