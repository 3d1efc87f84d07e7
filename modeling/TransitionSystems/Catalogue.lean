import TransitionSystems.System.Validity

/-!
Two small systems to try things on. Both are valid.
-/
namespace TransitionSystems.Catalogue

private def state (name : String) : State := .named name

/-- A machine that takes a coin and then decides by itself which drink to offer. -/
def beverageVendingMachine : System :=
  .ofEntries (State.ofNames ["pay", "select", "beer", "soda"])
    [.silent, ⟨"insert_coin"⟩, ⟨"get_beer"⟩, ⟨"get_soda"⟩]
    [(state "pay", [(⟨"insert_coin"⟩, [state "select"])]),
      (state "select", [(.silent, [state "beer", state "soda"])]),
      (state "beer", [(⟨"get_beer"⟩, [state "pay"])]),
      (state "soda", [(⟨"get_soda"⟩, [state "pay"])])]
    [state "pay"]
    (Label.ofNames ["paid", "drink"])
    [(state "pay", []),
      (state "select", Label.ofNames ["paid"]),
      (state "beer", Label.ofNames ["paid", "drink"]),
      (state "soda", Label.ofNames ["paid", "drink"])]

/-- Three states with steps back and forth, the last of them terminal. -/
def simpleChain : System :=
  .ofEntries (State.ofNames ["1", "2", "3"]) [⟨"a"⟩]
    [(state "1", [(⟨"a"⟩, State.ofNames ["1", "2"])]),
      (state "2", [(⟨"a"⟩, State.ofNames ["1", "2", "3"])])]
    [state "1"]
    (Label.ofNames ["A", "B", "C"])
    [(state "1", Label.ofNames ["A"]),
      (state "2", Label.ofNames ["B"]),
      (state "3", Label.ofNames ["B", "C"])]

theorem beverageVendingMachine_valid : beverageVendingMachine.Valid := by decide

theorem simpleChain_valid : simpleChain.Valid := by decide

end TransitionSystems.Catalogue
