import TransitionSystems.Proofs.Steps

/-!
Isomorphic systems: the one is the other with its states renamed. If corresponding states are listed
at the same places, steps and labels are compared as sets (`IsomorphicBy`) or list by list
(`RenamedBy`). Lists may also be in different orders (`ReorderedBy`).
-/
namespace TransitionSystems.System

/-- Renaming the states of `S` by `f` gives `T`. -/
structure IsomorphicBy (f : State → State) (S T : System) : Prop where
  states : T.states = S.states.map f
  injective : ∀ s ∈ S.states, ∀ t ∈ S.states, f s = f t → s = t
  actions : T.actions = S.actions
  initial : T.initial = S.initial.map f
  propositions : T.propositions = S.propositions
  steps : ∀ s ∈ S.states, ∀ a u, u ∈ T.successorsBy (f s) a ↔ ∃ t ∈ S.successorsBy s a, f t = u
  labels : ∀ s ∈ S.states, (T.label (f s)).agrees (S.label s) = true

/-- It is enough to compare the steps between declared states, as a valid system has no others. -/
theorem mem_successorsBy_map_iff {f : State → State} {S T : System} (hS : S.Valid) (hT : T.Valid)
    (hstates : T.states = S.states.map f) {s u : State} {a : Action}
    (hsteps : ∀ t ∈ S.states, f t ∈ T.successorsBy (f s) a ↔ t ∈ S.successorsBy s a) :
    u ∈ T.successorsBy (f s) a ↔ ∃ t ∈ S.successorsBy s a, f t = u := by
  constructor
  · intro hu
    have htarget := hT.target_of_step hu
    rw [hstates] at htarget
    obtain ⟨t, ht, rfl⟩ := List.mem_map.mp htarget
    exact ⟨t, (hsteps t ht).mp hu, rfl⟩
  · rintro ⟨t, ht, rfl⟩
    exact (hsteps t (hS.target_of_step ht)).mpr ht

/-- Renaming the states of `S` by `f` gives `T`, and every list of `T` is in the order of `S`. -/
structure RenamedBy (f : State → State) (S T : System) : Prop where
  states : T.states = S.states.map f
  actions : T.actions = S.actions
  initial : T.initial = S.initial.map f
  propositions : T.propositions = S.propositions
  steps : ∀ s ∈ S.states, ∀ a, T.successorsBy (f s) a = (S.successorsBy s a).map f
  labels : ∀ s ∈ S.states, T.label (f s) = S.label s

/-- Renaming the states of `S` by `f` gives `T`, and no list of `T` need be in the order of `S`. -/
structure ReorderedBy (f : State → State) (S T : System) : Prop where
  states : T.states.Perm (S.states.map f)
  actions : ListSet.isSame T.actions S.actions = true
  initial : T.initial.Perm (S.initial.map f)
  propositions : ListSet.isSame T.propositions S.propositions = true
  moveCount : T.moveCount = S.moveCount
  steps : ∀ s ∈ S.states, ∀ a, (T.successorsBy (f s) a).Perm ((S.successorsBy s a).map f)
  labels : ∀ s ∈ S.states, (T.label (f s)).agrees (S.label s) = true

end TransitionSystems.System
