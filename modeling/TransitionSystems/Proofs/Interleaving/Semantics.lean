import Mathlib.Data.List.Duplicate
import TransitionSystems.Proofs.Interleaving.Reachability

/-!
What an interleaving does in one step. From a pair of declared states either side makes its moves
while the other rests, the moves of the left side first; both sides lead to the same pair only where
neither leaves its state (`duplicate_sideMoves_iff`). A pair is initial, or terminal, if both of its
states are, and it has the labels of both. Nothing leads on from any other state
(`interleave_semantics`).
-/
namespace TransitionSystems

/-- Of two lists without repeats put together, only what is in both is a repeat. -/
theorem ListSet.duplicate_append_iff {α : Type} [DecidableEq α] {xs ys : List α} {x : α}
    (hx : xs.Nodup) (hy : ys.Nodup) : List.Duplicate x (xs ++ ys) ↔ x ∈ xs ∧ x ∈ ys := by
  rw [List.duplicate_iff_two_le_count, List.count_append, hx.count, hy.count]
  by_cases hxs : x ∈ xs
  · by_cases hys : x ∈ ys
    · simp [hxs, hys]
    · simp [hxs, hys]
  · by_cases hys : x ∈ ys
    · simp [hxs, hys]
    · simp [hxs, hys]

theorem State.product_left_injective (t : State) : Function.Injective (product · t) :=
  fun _ _ heq => (product.inj heq).1

theorem State.product_right_injective (s : State) : Function.Injective (product s) :=
  fun _ _ heq => (product.inj heq).2

namespace System

/-- Where `a` leads if the left side moves, and then where it leads if the right side does. -/
def sideMoves (S T : System) (s t : State) (a : Action) : List State :=
  (S.successorsBy s a).map (State.product · t) ++ (T.successorsBy t a).map (State.product s)

variable {S T : System} {s t u : State} {a : Action}

theorem duplicate_sideMoves_iff :
    List.Duplicate u (S.sideMoves T s t a) ↔
      u = .product s t ∧ s ∈ S.successorsBy s a ∧ t ∈ T.successorsBy t a := by
  rw [sideMoves, ListSet.duplicate_append_iff
    ((nodup_successorsBy S s a).map (State.product_left_injective t))
    ((nodup_successorsBy T t a).map (State.product_right_injective s)), List.mem_map, List.mem_map]
  constructor
  · rintro ⟨⟨s', hs, rfl⟩, t', ht, heq⟩
    cases heq
    exact ⟨rfl, hs, ht⟩
  · rintro ⟨rfl, hs, ht⟩
    exact ⟨⟨s, hs, rfl⟩, t, ht, rfl⟩

theorem isTerminal_interleavingParts_iff (hS : S.Valid) (hT : T.Valid) (hs : s ∈ S.states)
    (ht : t ∈ T.states) :
    (S.interleavingParts T).isTerminal (.product s t) = true ↔
      S.isTerminal s = true ∧ T.isTerminal t = true := by
  simp only [isTerminal_iff, mem_successors_interleavingParts hS hT hs ht, not_or]
  constructor
  · intro h
    exact ⟨fun s' hs' => (h _).1 ⟨s', hs', rfl⟩, fun t' ht' => (h _).2 ⟨t', ht', rfl⟩⟩
  · rintro ⟨hleft, hright⟩ u
    exact ⟨fun ⟨s', hs', _⟩ => hleft s' hs', fun ⟨t', ht', _⟩ => hright t' ht'⟩

theorem isInitial_interleavingParts_iff :
    (S.interleavingParts T).isInitial (.product s t) = true ↔
      S.isInitial s = true ∧ T.isInitial t = true := by
  simp only [isInitial, decide_eq_true_eq, product_mem_initial_interleavingParts]

/-- **Single steps of an interleaving.** Of two equal targets the later one is dropped. The action
may be declared on both sides, on one or on none. -/
theorem interleave_semantics (hS : S.Valid) (hT : T.Valid) :
    ∃ P, S.interleave T = .ok P ∧
      (∀ s ∈ S.states, ∀ t ∈ T.states,
        (∀ a, P.successorsBy (.product s t) a = (S.sideMoves T s t a).eraseDups ∧
          ∀ u, List.Duplicate u (S.sideMoves T s t a) ↔
            u = .product s t ∧ s ∈ S.successorsBy s a ∧ t ∈ T.successorsBy t a) ∧
        (P.isInitial (.product s t) = true ↔ S.isInitial s = true ∧ T.isInitial t = true) ∧
        P.label (.product s t) = S.label s ++ T.label t ∧
        (P.isTerminal (.product s t) = true ↔
          S.isTerminal s = true ∧ T.isTerminal t = true)) ∧
      ∀ u, (∀ s ∈ S.states, ∀ t ∈ T.states, u ≠ .product s t) → ∀ a, P.successorsBy u a = [] := by
  refine ⟨_, interleave_eq_ok hS hT, ?_, ?_⟩
  · intro s hs t ht
    refine ⟨fun a => ⟨?_, fun u => duplicate_sideMoves_iff⟩, isInitial_interleavingParts_iff,
      label_interleavingParts hs ht, isTerminal_interleavingParts_iff hS hT hs ht⟩
    exact successorsBy_interleavingParts hS hT hs ht a
  · intro u hu a
    rw [successorsBy, targets_interleavingParts_of_not_pair hu]
    rfl

/-- Both sides have a loop by `a`, and one declares its states and stores its targets twice. -/
theorem interleave_semantics_looseCycle :
    looseCycle.Valid ∧ Catalogue.simpleChain.Valid ∧
      ∃ P, looseCycle.interleave Catalogue.simpleChain = .ok P ∧
        P.successorsBy (.product (.named "1") (.named "1")) ⟨"a"⟩ =
          [.product (.named "1") (.named "1"), .product (.named "1") (.named "2")] ∧
        List.Duplicate (.product (.named "1") (.named "1"))
          (looseCycle.sideMoves Catalogue.simpleChain (.named "1") (.named "1") ⟨"a"⟩) ∧
        P.isInitial (.product (.named "2") (.named "1")) = false ∧
        P.label (.product (.named "2") (.named "3")) = Label.ofNames ["B", "C"] ∧
        P.isTerminal (.product (.named "1") (.named "3")) = false ∧
        P.successorsBy (.product (.named "1") (.named "9")) ⟨"a"⟩ = [] := by
  have hleft : looseCycle.Valid := by decide
  have hright : Catalogue.simpleChain.Valid := by decide
  obtain ⟨P, hP, hpair, hrest⟩ := interleave_semantics hleft hright
  obtain ⟨hmoves, _, _, _⟩ := hpair (.named "1") (by decide) (.named "1") (by decide)
  obtain ⟨_, hinitial, _, _⟩ := hpair (.named "2") (by decide) (.named "1") (by decide)
  obtain ⟨_, _, hlabel, _⟩ := hpair (.named "2") (by decide) (.named "3") (by decide)
  obtain ⟨_, _, _, hterminal⟩ := hpair (.named "1") (by decide) (.named "3") (by decide)
  refine ⟨hleft, hright, P, hP, ?_, ?_, ?_, ?_, ?_, ?_⟩
  · rw [(hmoves ⟨"a"⟩).1]
    decide
  · rw [(hmoves ⟨"a"⟩).2]
    decide
  · rw [Bool.eq_false_iff, Ne, hinitial]
    decide
  · rw [hlabel]
    decide
  · rw [Bool.eq_false_iff, Ne, hterminal]
    decide
  · exact hrest _ (by decide) _

end System
end TransitionSystems
