import Mathlib.Data.Multiset.Bind
import TransitionSystems.Proofs.Interleaving.Reachability
import TransitionSystems.Proofs.Isomorphism
import TransitionSystems.Proofs.StoredMoves

/-!
Interleaving is commutative. Exchanging the components of all states takes the steps of one
interleaving to those of the other (`swap_mem_successorsBy_iff`), where moves of the other side come
first and pairs are listed in another order (`reorderedBy_swap`). No list of targets has repeats, so
the numbers of stored moves agree as well, loops of both sides by one action included.
-/
namespace TransitionSystems

theorem ListSet.perm_pairs_swap {α β : Type} (xs : List α) (ys : List β) :
    (pairs ys xs).Perm ((pairs xs ys).map Prod.swap) := by
  have h := Multiset.map_swap_product (xs : Multiset α) (ys : Multiset β)
  rw [Multiset.coe_product, Multiset.coe_product, Multiset.map_coe, Multiset.coe_eq_coe] at h
  exact h.symm

namespace State

/-- Exchanges the components of a pair. -/
def swap : State → State
  | product s t => product t s
  | s => s

theorem swap_involutive : Function.Involutive swap := by
  intro s
  cases s with
  | named n => rfl
  | product s t => rfl
  | block ss => rfl

theorem perm_map_product_swap (ss ts : List State) :
    ((ListSet.pairs ts ss).map fun (t, s) => product t s).Perm
      (((ListSet.pairs ss ts).map fun (s, t) => product s t).map swap) := by
  have hperm := (ListSet.perm_pairs_swap ss ts).map fun (t, s) => product t s
  rw [List.map_map] at hperm ⊢
  exact hperm

end State

namespace System

variable {S T : System} {s t u : State} {a : Action}

theorem swap_mem_successorsBy (hS : S.Valid) (hT : T.Valid)
    (h : t ∈ (S.interleavingParts T).successorsBy s a) :
    t.swap ∈ (T.interleavingParts S).successorsBy s.swap a := by
  obtain ⟨l, hl, r, hr, rfl⟩ :=
    mem_states_interleavingParts.mp ((hS.interleavingParts hT).source_of_step h)
  rw [State.swap, mem_successorsBy_interleavingParts hT hS hr hl]
  rcases (mem_successorsBy_interleavingParts hS hT hl hr).mp h with ⟨l', hl', rfl⟩ | ⟨r', hr', rfl⟩
  · exact Or.inr ⟨l', hl', rfl⟩
  · exact Or.inl ⟨r', hr', rfl⟩

theorem swap_mem_successorsBy_iff (hS : S.Valid) (hT : T.Valid) :
    t.swap ∈ (T.interleavingParts S).successorsBy s.swap a ↔
      t ∈ (S.interleavingParts T).successorsBy s a := by
  constructor
  · intro h
    have hback := swap_mem_successorsBy hT hS h
    rwa [State.swap_involutive s, State.swap_involutive t] at hback
  · exact swap_mem_successorsBy hS hT

theorem moveCount_interleavingParts_comm (hS : S.Valid) (hT : T.Valid) :
    (T.interleavingParts S).moveCount = (S.interleavingParts T).moveCount := by
  refine moveCount_eq_of_involutive State.swap_involutive nodup_targets_interleavingParts
    nodup_targets_interleavingParts ?_
  intro s a t
  rw [← mem_successorsBy, ← mem_successorsBy, swap_mem_successorsBy_iff hT hS]

theorem reorderedBy_swap (hS : S.Valid) (hT : T.Valid) :
    ReorderedBy State.swap (S.interleavingParts T) (T.interleavingParts S) where
  states := State.perm_map_product_swap S.states T.states
  actions := by
    rw [ListSet.isSame_iff]
    intro a
    rw [mem_actions_interleavingParts, mem_actions_interleavingParts, or_comm]
  initial := State.perm_map_product_swap S.initial T.initial
  propositions := by
    rw [ListSet.isSame_iff]
    intro p
    simp only [interleavingParts, List.mem_append, or_comm]
  moveCount := moveCount_interleavingParts_comm hS hT
  steps := by
    intro s _ a
    rw [List.perm_ext_iff_of_nodup (nodup_successorsBy _ _ _)
      ((nodup_successorsBy _ _ _).map State.swap_involutive.injective)]
    intro u
    rw [List.mem_map_of_involutive State.swap_involutive, ← swap_mem_successorsBy_iff hS hT,
      State.swap_involutive u]
  labels := by
    intro u hu
    obtain ⟨s, hs, t, ht, rfl⟩ := mem_states_interleavingParts.mp hu
    rw [State.swap, label_interleavingParts ht hs, label_interleavingParts hs ht, Label.agrees_iff]
    intro p
    rw [List.mem_append, List.mem_append, or_comm]

theorem isReachable_swap (hS : S.Valid) (hT : T.Valid)
    (hu : u ∈ (S.interleavingParts T).states) :
    (T.interleavingParts S).isReachable u.swap = (S.interleavingParts T).isReachable u := by
  obtain ⟨s, _, t, _, rfl⟩ := mem_states_interleavingParts.mp hu
  rw [Bool.eq_iff_iff, isReachable_iff (hS.interleavingParts hT),
    isReachable_iff (hT.interleavingParts hS), State.swap,
    product_reachable_interleavingParts hT hS, product_reachable_interleavingParts hS hT, and_comm]

/-- **Interleaving is commutative.** The components of the states change places, and lists may come
in another order. -/
theorem interleave_comm (hS : S.Valid) (hT : T.Valid) :
    ∃ P P', S.interleave T = .ok P ∧ T.interleave S = .ok P' ∧
      (∀ s t, State.swap (.product s t) = .product t s) ∧ ReorderedBy State.swap P P' ∧
      ∀ u ∈ P.states, P'.isReachable u.swap = P.isReachable u :=
  ⟨_, _, interleave_eq_ok hS hT, interleave_eq_ok hT hS, fun _ _ => rfl, reorderedBy_swap hS hT,
    fun _ => isReachable_swap hS hT⟩

/-- Both systems have a loop by the same action, and one lists states and targets twice. -/
theorem interleave_comm_looseCycle :
    looseCycle.Valid ∧ Catalogue.simpleChain.Valid ∧
      ∃ P P', looseCycle.interleave Catalogue.simpleChain = .ok P ∧
        Catalogue.simpleChain.interleave looseCycle = .ok P' ∧
        P'.moveCount = 22 ∧
        (P'.successorsBy (.product (.named "2") (.named "2")) ⟨"a"⟩).Perm
          [.product (.named "2") (.named "3"), .product (.named "1") (.named "2"),
            .product (.named "2") (.named "2"), .product (.named "3") (.named "2")] ∧
        P'.isReachable (.product (.named "3") (.named "1")) = true ∧
        P'.isReachable (.product (.named "3") (.named "2")) = false := by
  have hleft : looseCycle.Valid := by decide
  have hright : Catalogue.simpleChain.Valid := by decide
  obtain ⟨P, P', hP, hP', _, hreordered, hreachable⟩ := interleave_comm hleft hright
  obtain rfl : _ = P := Except.ok.inj ((interleave_eq_ok hleft hright).symm.trans hP)
  refine ⟨hleft, hright, _, P', hP, hP', ?_, ?_, ?_, ?_⟩
  · rw [hreordered.moveCount]
    decide
  · have hsteps := hreordered.steps (.product (.named "2") (.named "2")) (by decide) ⟨"a"⟩
    have hmoves : ((looseCycle.interleavingParts Catalogue.simpleChain).successorsBy
        (.product (.named "2") (.named "2")) ⟨"a"⟩).map State.swap =
          [.product (.named "2") (.named "3"), .product (.named "1") (.named "2"),
            .product (.named "2") (.named "2"), .product (.named "3") (.named "2")] := by decide
    rwa [hmoves] at hsteps
  · exact (hreachable (.product (.named "1") (.named "3")) (by decide)).trans (by decide)
  · exact (hreachable (.product (.named "2") (.named "3")) (by decide)).trans (by decide)

end System
end TransitionSystems
