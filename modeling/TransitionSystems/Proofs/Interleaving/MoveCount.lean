import Mathlib.Algebra.BigOperators.Group.Finset.Sigma
import TransitionSystems.Catalogue
import TransitionSystems.Proofs.Interleaving.Steps
import TransitionSystems.Proofs.StoredMoves

/-!
How many moves an interleaving has. Each step of one side is made beside each state of the other
(`card_leftSteps`, `card_rightSteps`), and these are all the steps
(`toFinset_storedMoves_interleavingParts`). A step is made by either side just if both sides have a
loop there by the same action, so that pairs of loops are counted twice
(`leftSteps_inter_rightSteps`).
-/
namespace TransitionSystems.System

/-- The declared states that `a` leads back to, as often as they are declared. -/
def loops (S : System) (a : Action) : List State := S.states.filter fun s => s ∈ S.successorsBy s a

/-- The steps of the left side, each beside every state of the right side. -/
def leftSteps (S T : System) : Finset (State × Action × State) :=
  (S.storedMoves.toFinset ×ˢ T.states.toFinset).image fun (move, t) =>
    (.product move.1 t, move.2.1, .product move.2.2 t)

def rightSteps (S T : System) : Finset (State × Action × State) :=
  (S.states.toFinset ×ˢ T.storedMoves.toFinset).image fun (s, move) =>
    (.product s move.1, move.2.1, .product s move.2.2)

variable {S T : System} {s t u v : State} {a : Action}

theorem mem_loops : s ∈ S.loops a ↔ s ∈ S.states ∧ s ∈ S.successorsBy s a := by
  simp [loops]

theorem nodup_loops (h : S.states.Nodup) : (S.loops a).Nodup := h.filter _

theorem mem_leftSteps : (u, a, v) ∈ leftSteps S T ↔
    ∃ s t, u = .product s t ∧ t ∈ T.states ∧ ∃ s' ∈ S.successorsBy s a, v = .product s' t := by
  simp only [leftSteps, Finset.mem_image, Finset.mem_product, List.mem_toFinset, Prod.exists,
    mem_storedMoves, ← mem_successorsBy]
  constructor
  · rintro ⟨s, _, s', t, ⟨hs', ht⟩, heq⟩
    cases heq
    exact ⟨s, t, rfl, ht, s', hs', rfl⟩
  · rintro ⟨s, t, rfl, ht, s', hs', rfl⟩
    exact ⟨s, a, s', t, ⟨hs', ht⟩, rfl⟩

theorem mem_rightSteps : (u, a, v) ∈ rightSteps S T ↔
    ∃ s t, u = .product s t ∧ s ∈ S.states ∧ ∃ t' ∈ T.successorsBy t a, v = .product s t' := by
  simp only [rightSteps, Finset.mem_image, Finset.mem_product, List.mem_toFinset, Prod.exists,
    mem_storedMoves, ← mem_successorsBy]
  constructor
  · rintro ⟨s, t, _, t', ⟨hs, ht'⟩, heq⟩
    cases heq
    exact ⟨s, t, rfl, hs, t', ht', rfl⟩
  · rintro ⟨s, t, rfl, hs, t', ht', rfl⟩
    exact ⟨s, t, a, t', ⟨hs, ht'⟩, rfl⟩

theorem toFinset_storedMoves_interleavingParts (hS : S.Valid) (hT : T.Valid) :
    (S.interleavingParts T).storedMoves.toFinset = leftSteps S T ∪ rightSteps S T := by
  ext ⟨u, a, v⟩
  rw [List.mem_toFinset, mem_storedMoves, ← mem_successorsBy, Finset.mem_union, mem_leftSteps,
    mem_rightSteps]
  constructor
  · intro hv
    obtain ⟨s, hs, t, ht, rfl⟩ :=
      mem_states_interleavingParts.mp ((hS.interleavingParts hT).source_of_step hv)
    rcases (mem_successorsBy_interleavingParts hS hT hs ht).mp hv with hleft | hright
    · exact Or.inl ⟨s, t, rfl, ht, hleft⟩
    · exact Or.inr ⟨s, t, rfl, hs, hright⟩
  · rintro (⟨s, t, rfl, ht, s', hs', rfl⟩ | ⟨s, t, rfl, hs, t', ht', rfl⟩)
    · have hs := hS.source_of_step hs'
      exact (mem_successorsBy_interleavingParts hS hT hs ht).mpr (Or.inl ⟨s', hs', rfl⟩)
    · have ht := hT.source_of_step ht'
      exact (mem_successorsBy_interleavingParts hS hT hs ht).mpr (Or.inr ⟨t', ht', rfl⟩)

/-! ## Counts -/

theorem card_leftSteps (hnodup : T.states.Nodup) :
    (leftSteps S T).card = T.states.length * S.storedMoves.toFinset.card := by
  have hinjective : Function.Injective fun p : (State × Action × State) × State =>
      (State.product p.1.1 p.2, p.1.2.1, State.product p.1.2.2 p.2) := by
    rintro ⟨⟨s, a, s'⟩, t⟩ ⟨⟨r, b, r'⟩, w⟩ heq
    cases heq
    rfl
  rw [leftSteps, Finset.card_image_of_injective _ hinjective, Finset.card_product,
    List.toFinset_card_of_nodup hnodup, Nat.mul_comm]

theorem card_rightSteps (hnodup : S.states.Nodup) :
    (rightSteps S T).card = S.states.length * T.storedMoves.toFinset.card := by
  have hinjective : Function.Injective fun p : State × State × Action × State =>
      (State.product p.1 p.2.1, p.2.2.1, State.product p.1 p.2.2.2) := by
    rintro ⟨s, t, a, t'⟩ ⟨r, w, b, w'⟩ heq
    cases heq
    rfl
  rw [rightSteps, Finset.card_image_of_injective _ hinjective, Finset.card_product,
    List.toFinset_card_of_nodup hnodup]

/-- A step that both sides can make leaves both where they are. -/
theorem leftSteps_inter_rightSteps (hS : S.Valid) (hT : T.Valid) :
    leftSteps S T ∩ rightSteps S T =
      ((S.actions.toFinset ∩ T.actions.toFinset).sigma fun a =>
        (S.loops a).toFinset ×ˢ (T.loops a).toFinset).image fun ⟨a, s, t⟩ =>
          (.product s t, a, .product s t) := by
  ext ⟨u, a, v⟩
  simp only [Finset.mem_inter, mem_leftSteps, mem_rightSteps, Finset.mem_image, Finset.mem_sigma,
    Finset.mem_product, List.mem_toFinset, mem_loops, Sigma.exists, Prod.exists]
  constructor
  · rintro ⟨⟨s, t, rfl, ht, s', hs', rfl⟩, _, _, heq, hs, t', ht', heq'⟩
    cases heq
    cases heq'
    exact ⟨a, s, t, ⟨⟨hS.action_of_step hs', hT.action_of_step ht'⟩, ⟨hs, hs'⟩, ht, ht'⟩, rfl⟩
  · rintro ⟨_, s, t, ⟨_, ⟨hs, hs'⟩, ht, ht'⟩, heq⟩
    cases heq
    exact ⟨⟨s, t, rfl, ht, s, hs', rfl⟩, s, t, rfl, hs, t, ht', rfl⟩

theorem card_leftSteps_inter_rightSteps (hS : S.Valid) (hT : T.Valid) (hs : S.states.Nodup)
    (ht : T.states.Nodup) :
    (leftSteps S T ∩ rightSteps S T).card =
      ∑ a ∈ S.actions.toFinset ∩ T.actions.toFinset, (S.loops a).length * (T.loops a).length := by
  have hinjective : Function.Injective fun p : (_ : Action) × State × State =>
      (State.product p.2.1 p.2.2, p.1, State.product p.2.1 p.2.2) := by
    rintro ⟨a, s, t⟩ ⟨b, r, w⟩ heq
    cases heq
    rfl
  rw [leftSteps_inter_rightSteps hS hT, Finset.card_image_of_injective _ hinjective,
    Finset.card_sigma]
  refine Finset.sum_congr rfl fun a _ => ?_
  rw [Finset.card_product, List.toFinset_card_of_nodup (nodup_loops hs),
    List.toFinset_card_of_nodup (nodup_loops ht)]

/-- **The number of moves of an interleaving.** -/
theorem moveCount_interleave (hS : S.Valid) (hT : T.Valid) (hs : S.states.Nodup)
    (ht : T.states.Nodup) :
    ∃ P, S.interleave T = .ok P ∧
      P.moveCount +
        ∑ a ∈ S.actions.toFinset ∩ T.actions.toFinset, (S.loops a).length * (T.loops a).length =
        T.states.length * S.steps.ncard + S.states.length * T.steps.ncard := by
  refine ⟨_, interleave_eq_ok hS hT, ?_⟩
  rw [moveCount_eq_ncard_steps_iff.mpr nodup_targets_interleavingParts, ncard_steps, ncard_steps,
    ncard_steps, toFinset_storedMoves_interleavingParts hS hT,
    ← card_leftSteps_inter_rightSteps hS hT hs ht, Finset.card_union_add_card_inter,
    card_leftSteps ht, card_rightSteps hs]

/-- It can stay in the one state by `a` and in the other one by `b`. -/
def stutter : System :=
  .ofEntries (State.ofNames ["1", "2"]) [⟨"a"⟩, ⟨"b"⟩, ⟨"a"⟩]
    [(.named "1", [(⟨"a"⟩, State.ofNames ["1", "1", "2"])]),
      (.named "2", [(⟨"a"⟩, []), (⟨"b"⟩, State.ofNames ["2"])])]
    (State.ofNames ["1"]) [] []

/-- One side has two loops by `a` and the other has one. -/
theorem moveCount_interleave_stutter :
    Catalogue.simpleChain.Valid ∧ stutter.Valid ∧ Catalogue.simpleChain.states.Nodup ∧
      stutter.states.Nodup ∧ Catalogue.simpleChain.steps.ncard = 5 ∧ stutter.steps.ncard = 3 ∧
      ∃ P, Catalogue.simpleChain.interleave stutter = .ok P ∧
        P.moveCount + 2 * 1 = 2 * 5 + 3 * 3 := by
  have hleft : Catalogue.simpleChain.steps.ncard = 5 := by
    rw [ncard_steps]
    decide
  have hright : stutter.steps.ncard = 3 := by
    rw [ncard_steps]
    decide
  obtain ⟨P, hP, hcount⟩ := moveCount_interleave (S := Catalogue.simpleChain) (T := stutter)
    (by decide) (by decide) (by decide) (by decide)
  have hloops : ∑ a ∈ Catalogue.simpleChain.actions.toFinset ∩ stutter.actions.toFinset,
      (Catalogue.simpleChain.loops a).length * (stutter.loops a).length = 2 * 1 := by decide
  rw [hloops, hleft, hright] at hcount
  exact ⟨by decide, by decide, by decide, by decide, hleft, hright, P, hP, hcount⟩

end TransitionSystems.System
