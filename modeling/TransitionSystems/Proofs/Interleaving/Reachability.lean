import Mathlib.Data.List.Nodup
import Mathlib.Data.List.ProdSigma
import TransitionSystems.Proofs.Interleaving.Steps
import TransitionSystems.Proofs.Invariants

/-!
Reachability in an interleaving. Runs of the two sides can be put one after the other, and a run of
the interleaving takes each side along steps of its own, so a pair is reachable just if both its
components are (`reachable_interleavingParts`). The search of the interleaving lists the pairs of
what the searches of the two sides list (`reachability_interleave`).

A pair satisfies what one of its components satisfies. So a proposition cannot be kept by the two
sides in turns: if it holds in all reachable pairs, then one side keeps it all by itself
(`invariant_interleave_iff`).
-/
namespace TransitionSystems.System

variable {S T : System} {s t u : State} {p : Proposition}

theorem Reachable.declared_sides (hS : S.Valid) (hT : T.Valid)
    (h : (S.interleavingParts T).Reachable (.product s t)) : s ∈ S.states ∧ t ∈ T.states :=
  product_mem_states_interleavingParts.mp (h.declared (hS.interleavingParts hT))

theorem Reachable.step_left (hS : S.Valid) (hT : T.Valid)
    (h : (S.interleavingParts T).Reachable (.product s t)) (hu : u ∈ S.successors s) :
    (S.interleavingParts T).Reachable (.product u t) := by
  obtain ⟨hs, ht⟩ := h.declared_sides hS hT
  exact h.step ((mem_successors_interleavingParts hS hT hs ht).mpr (Or.inl ⟨u, hu, rfl⟩))

theorem Reachable.step_right (hS : S.Valid) (hT : T.Valid)
    (h : (S.interleavingParts T).Reachable (.product s t)) (hu : u ∈ T.successors t) :
    (S.interleavingParts T).Reachable (.product s u) := by
  obtain ⟨hs, ht⟩ := h.declared_sides hS hT
  exact h.step ((mem_successors_interleavingParts hS hT hs ht).mpr (Or.inr ⟨u, hu, rfl⟩))

/-- The left side moves first, and then the right side. -/
theorem Reachable.interleavingParts (hS : S.Valid) (hT : T.Valid) (hs : S.Reachable s)
    (ht : T.Reachable t) : (S.interleavingParts T).Reachable (.product s t) := by
  obtain ⟨i, hi, his⟩ := hs
  obtain ⟨j, hj, hjt⟩ := ht
  have hstart : (S.interleavingParts T).Reachable (.product i j) :=
    .initial (product_mem_initial_interleavingParts.mpr ⟨hi, hj⟩)
  have hleft : (S.interleavingParts T).Reachable (.product s j) := by
    induction his with
    | refl => exact hstart
    | tail _ hstep ih => exact ih.step_left hS hT hstep
  induction hjt with
  | refl => exact hleft
  | tail _ hstep ih => exact ih.step_right hS hT hstep

theorem reachable_interleavingParts (hS : S.Valid) (hT : T.Valid) :
    (S.interleavingParts T).Reachable u ↔
      ∃ s t, u = .product s t ∧ S.Reachable s ∧ T.Reachable t := by
  constructor
  · intro h
    refine Reachable.induction
      (P := fun u => ∃ s t, u = .product s t ∧ S.Reachable s ∧ T.Reachable t) ?_ ?_ h
    · intro u hu
      obtain ⟨s, hs, t, ht, rfl⟩ := mem_initial_interleavingParts.mp hu
      exact ⟨s, t, rfl, .initial hs, .initial ht⟩
    · rintro _ ⟨s, t, rfl, hs, ht⟩ v hv
      rcases (mem_successors_interleavingParts hS hT (hs.declared hS) (ht.declared hT)).mp hv with
        ⟨s', hs', rfl⟩ | ⟨t', ht', rfl⟩
      · exact ⟨s', t, rfl, hs.step hs', ht⟩
      · exact ⟨s, t', rfl, hs, ht.step ht'⟩
  · rintro ⟨s, t, rfl, hs, ht⟩
    exact hs.interleavingParts hS hT ht

theorem product_reachable_interleavingParts (hS : S.Valid) (hT : T.Valid) :
    (S.interleavingParts T).Reachable (.product s t) ↔ S.Reachable s ∧ T.Reachable t := by
  rw [reachable_interleavingParts hS hT]
  constructor
  · rintro ⟨s', t', heq, h⟩
    cases heq
    exact h
  · intro h
    exact ⟨s, t, rfl, h⟩

theorem perm_reachableStates_interleavingParts (hS : S.Valid) (hT : T.Valid) :
    (S.interleavingParts T).reachableStates.Perm
      ((ListSet.pairs S.reachableStates T.reachableStates).map fun (s, t) => .product s t) := by
  rw [List.perm_ext_iff_of_nodup (nodup_reachableStates _)]
  · intro u
    rw [mem_reachableStates, reachable_interleavingParts hS hT, List.mem_map]
    simp only [Prod.exists, ListSet.mem_pairs, mem_reachableStates]
    constructor
    · rintro ⟨s, t, rfl, h⟩
      exact ⟨s, t, h, rfl⟩
    · rintro ⟨s, t, h, rfl⟩
      exact ⟨s, t, rfl, h⟩
  · refine List.Nodup.map ?_ ((nodup_reachableStates S).product (nodup_reachableStates T))
    rintro ⟨s, t⟩ ⟨s', t'⟩ h
    cases h
    rfl

/-- **Reachability of an interleaving factors.** -/
theorem reachability_interleave (hS : S.Valid) (hT : T.Valid) :
    ∃ P, S.interleave T = .ok P ∧
      (∀ u, P.isReachable u = true ↔
        ∃ s t, u = .product s t ∧ S.isReachable s = true ∧ T.isReachable t = true) ∧
      P.reachableStates.length = S.reachableStates.length * T.reachableStates.length := by
  refine ⟨_, interleave_eq_ok hS hT, ?_, ?_⟩
  · intro u
    simp only [isReachable_iff (hS.interleavingParts hT), isReachable_iff hS, isReachable_iff hT]
    exact reachable_interleavingParts hS hT
  · have hperm := perm_reachableStates_interleavingParts hS hT
    rw [hperm.length_eq, List.length_map]
    exact List.length_product _ _

/-- The loose cycle stays in its initial state while the chain gets to its end. What it cannot reach
by itself it cannot reach beside the chain, and a state that is no pair is not reachable at all. -/
theorem reachability_interleave_looseCycle :
    looseCycle.Valid ∧ Catalogue.simpleChain.Valid ∧
      ∃ P, looseCycle.interleave Catalogue.simpleChain = .ok P ∧
        P.isReachable (.product (.named "1") (.named "3")) = true ∧
        P.isReachable (.product (.named "2") (.named "3")) = false ∧
        P.isReachable (.named "1") = false ∧
        P.reachableStates.length = 3 := by
  have hleft : looseCycle.Valid := by decide
  have hright : Catalogue.simpleChain.Valid := by decide
  obtain ⟨P, hP, hreachable, hcount⟩ := reachability_interleave hleft hright
  refine ⟨hleft, hright, P, hP, ?_, ?_, ?_, ?_⟩
  · exact (hreachable _).mpr ⟨.named "1", .named "3", rfl, by decide, by decide⟩
  · rw [Bool.eq_false_iff, ne_eq, hreachable]
    rintro ⟨_, _, ⟨⟩, hs, _⟩
    exact absurd hs (by decide)
  · rw [Bool.eq_false_iff, ne_eq, hreachable]
    rintro ⟨_, _, ⟨⟩, _⟩
  · rw [hcount]
    decide

/-! ## Invariants -/

theorem satisfies_interleavingParts (hs : s ∈ S.states) (ht : t ∈ T.states) :
    (S.interleavingParts T).satisfies (.product s t) p = true ↔
      S.satisfies s p = true ∨ T.satisfies t p = true := by
  simp only [satisfies, label_interleavingParts hs ht, List.mem_append, decide_eq_true_eq]

theorem invariant_interleavingParts_iff (hS : S.Valid) (hT : T.Valid) :
    (∀ u, (S.interleavingParts T).Reachable u → (S.interleavingParts T).satisfies u p = true) ↔
      (∀ s, S.Reachable s → S.satisfies s p = true) ∨
        ∀ t, T.Reachable t → T.satisfies t p = true := by
  have hpair (s t : State) (hs : S.Reachable s) (ht : T.Reachable t) :=
    satisfies_interleavingParts (p := p) (hs.declared hS) (ht.declared hT)
  constructor
  · intro hall
    by_cases hleft : ∀ s, S.Reachable s → S.satisfies s p = true
    · exact Or.inl hleft
    · -- a left state without `p` leaves it to each state on the right
      right
      push Not at hleft
      obtain ⟨s, hs, hfails⟩ := hleft
      intro t ht
      have hst := hall _ (hs.interleavingParts hS hT ht)
      exact ((hpair s t hs ht).mp hst).resolve_left hfails
  · intro hside u hu
    obtain ⟨s, t, rfl, hs, ht⟩ := (reachable_interleavingParts hS hT).mp hu
    rw [hpair s t hs ht]
    exact hside.imp (fun hleft => hleft s hs) (fun hright => hright t ht)

/-- **Invariants of an interleaving decompose.** -/
theorem invariant_interleave_iff (hS : S.Valid) (hT : T.Valid) (p : Proposition) :
    ∃ P, S.interleave T = .ok P ∧
      ((∀ u ∈ P.reachableStates, P.satisfies u p = true) ↔
        (∀ s ∈ S.reachableStates, S.satisfies s p = true) ∨
          ∀ t ∈ T.reachableStates, T.satisfies t p = true) := by
  refine ⟨_, interleave_eq_ok hS hT, ?_⟩
  simp only [mem_reachableStates]
  exact invariant_interleavingParts_iff hS hT

/-- Both sides declare `p` and `q`. They keep `p`, and get to states without `q` together. -/
theorem invariant_interleave_iff_guardedLoop :
    guardedLoop.Valid ∧ ∃ P, guardedLoop.interleave guardedLoop = .ok P ∧
      (∀ u ∈ P.reachableStates, P.satisfies u ⟨"p"⟩ = true) ∧
      ¬∀ u ∈ P.reachableStates, P.satisfies u ⟨"q"⟩ = true := by
  have hvalid : guardedLoop.Valid := by decide
  have hp : ∀ s ∈ guardedLoop.reachableStates, guardedLoop.satisfies s ⟨"p"⟩ = true := by decide
  have hq : ¬∀ s ∈ guardedLoop.reachableStates, guardedLoop.satisfies s ⟨"q"⟩ = true := by decide
  obtain ⟨P, hP, hiffp⟩ := invariant_interleave_iff hvalid hvalid ⟨"p"⟩
  obtain ⟨P', hP', hiffq⟩ := invariant_interleave_iff hvalid hvalid ⟨"q"⟩
  obtain rfl : P' = P := Except.ok.inj (hP'.symm.trans hP)
  refine ⟨hvalid, P', hP, hiffp.mpr (Or.inl hp), ?_⟩
  rw [hiffq, or_self]
  exact hq

end TransitionSystems.System
