import TransitionSystems.System.Validity

/-!
Interleavings. Two systems run side by side: in each step one of them moves and the other rests,
also where both know the action. A state is a pair of states, initial if both are, and labelled
with both labels one after the other.
-/
namespace TransitionSystems.System

/-- Moves of the left component come first. -/
def pairSuccessors (S T : System) (pair : State × State) (a : Action) : List State :=
  let left := if a ∈ S.actions then S.successorsBy pair.1 a else []
  let right := if a ∈ T.actions then T.successorsBy pair.2 a else []
  (left.map (State.product · pair.2) ++ right.map (State.product pair.1)).eraseDups

/-- What the interleaving is before it is known to be valid. -/
def interleavingParts (S T : System) : System where
  states := (ListSet.pairs S.states T.states).map fun (s, t) => .product s t
  actions := ListSet.union [S.actions, T.actions]
  moves :=
    .ofCells ((ListSet.pairs S.states T.states).map fun (s, t) => (.product s t, (s, t)))
      (ListSet.union [S.actions, T.actions]) (S.pairSuccessors T)
  initial := (ListSet.pairs S.initial T.initial).map fun (s, t) => .product s t
  propositions := S.propositions ++ T.propositions
  labels :=
    .ofList ((ListSet.pairs S.states T.states).map fun (s, t) =>
      (.product s t, S.label s ++ T.label t)) compare

/-- Only valid systems are interleaved. -/
def interleave (S T : System) : Except Fault System :=
  match S.violation?, T.violation? with
  | none, none => (S.interleavingParts T).validate.mapError .violation
  | left, right => .error (.invalidOperands (left.map .violation) (right.map .violation))

theorem targets_interleavingParts {S T : System} {s t : State} (hs : s ∈ S.states)
    (ht : t ∈ T.states) (a : Action) :
    (S.interleavingParts T).targets (.product s t) a = S.pairSuccessors T (s, t) a := by
  have hkey : (State.product s t, (s, t)) ∈
      (ListSet.pairs S.states T.states).map fun (s, t) => (State.product s t, (s, t)) :=
    List.mem_map.2 ⟨(s, t), ListSet.mem_pairs.2 ⟨hs, ht⟩, rfl⟩
  rw [targets, interleavingParts, Grid.at?_ofCells_of_mem hkey]
  · split
    · rfl
    · rename_i ha
      simp only [ListSet.mem_union, List.mem_cons, List.not_mem_nil, or_false, exists_eq_or_imp,
        exists_eq_left, not_or] at ha
      simp [pairSuccessors, ha]
  · intro pair hpair
    obtain ⟨_, _, h⟩ := List.mem_map.1 hpair
    cases h
    rfl

theorem targets_interleavingParts_of_not_pair {S T : System} {u : State}
    (h : ∀ s ∈ S.states, ∀ t ∈ T.states, u ≠ .product s t) (a : Action) :
    (S.interleavingParts T).targets u a = [] := by
  rw [targets, interleavingParts, Grid.at?_ofCells_of_not_mem]
  · rfl
  · rintro ⟨s, t⟩ hmem
    obtain ⟨⟨s', t'⟩, hp, h'⟩ := List.mem_map.1 hmem
    obtain ⟨hs, ht⟩ := ListSet.mem_pairs.1 hp
    cases h'
    exact h s hs t ht rfl

end TransitionSystems.System
