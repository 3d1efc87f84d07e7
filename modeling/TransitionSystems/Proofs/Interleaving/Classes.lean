import Mathlib.Data.List.ProdSigma
import TransitionSystems.Proofs.Determinism
import TransitionSystems.Proofs.Interleaving.Steps

/-!
Classes of interleavings. An interleaving blocks where both of its sides do, so each of its actions
has to be one that some side can take everywhere, but the side need not be the same for all actions
(`isNonBlocking_interleavingParts_iff`). Its steps are decided just if those of both sides are,
provided that no action is shared (`actionsDecide_interleavingParts_iff`).
-/
namespace TransitionSystems.System

variable {S T : System} {s t : State} {a : Action}

/-! ## Actions that never block -/

theorem successorsBy_interleavingParts_eq_nil_iff (hS : S.Valid) (hT : T.Valid)
    (hs : s ∈ S.states) (ht : t ∈ T.states) :
    (S.interleavingParts T).successorsBy (.product s t) a = [] ↔
      S.successorsBy s a = [] ∧ T.successorsBy t a = [] := by
  simp only [List.eq_nil_iff_forall_not_mem, mem_successorsBy_interleavingParts hS hT hs ht, not_or]
  constructor
  · intro h
    exact ⟨fun s' hs' => (h _).1 ⟨s', hs', rfl⟩, fun t' ht' => (h _).2 ⟨t', ht', rfl⟩⟩
  · rintro ⟨hleft, hright⟩ u
    exact ⟨fun ⟨s', hs', _⟩ => hleft s' hs', fun ⟨t', ht', _⟩ => hright t' ht'⟩

theorem neverBlocks_interleavingParts_iff (hS : S.Valid) (hT : T.Valid) :
    (S.interleavingParts T).NeverBlocks a ↔ S.NeverBlocks a ∨ T.NeverBlocks a := by
  have hpair (s t : State) (hs : s ∈ S.states) (ht : t ∈ T.states) :=
    not_congr (successorsBy_interleavingParts_eq_nil_iff (a := a) hS hT hs ht)
  constructor
  · intro hall
    by_cases hleft : S.NeverBlocks a
    · exact Or.inl hleft
    · -- a left state that blocks leaves the action to each state on the right
      right
      rw [NeverBlocks] at hleft
      push Not at hleft
      obtain ⟨s, hs, hblocks⟩ := hleft
      intro t ht htblocks
      have hst := hall _ (product_mem_states_interleavingParts.mpr ⟨hs, ht⟩)
      exact (hpair s t hs ht).mp hst ⟨hblocks, htblocks⟩
  · intro hside u hu
    obtain ⟨s, hs, t, ht, rfl⟩ := mem_states_interleavingParts.mp hu
    refine (hpair s t hs ht).mpr ?_
    rintro ⟨hsblocks, htblocks⟩
    rcases hside with hleft | hright
    · exact hleft s hs hsblocks
    · exact hright t ht htblocks

theorem isNonBlocking_interleavingParts_iff (hS : S.Valid) (hT : T.Valid) :
    (S.interleavingParts T).isNonBlocking = true ↔
      ∀ a ∈ (S.interleavingParts T).actions, S.NeverBlocks a ∨ T.NeverBlocks a := by
  simp only [isNonBlocking_iff_neverBlocks, neverBlocks_interleavingParts_iff hS hT]

/-! ## Actions that decide the next state -/

theorem ActionsDecide.left_of_interleavingParts (hS : S.Valid) (hT : T.Valid)
    (ht : t ∈ T.states) (h : (S.interleavingParts T).ActionsDecide) : S.ActionsDecide := by
  intro s a s' hs' s'' hs''
  have hs := hS.source_of_step hs'
  have hstep (u : State) (hu : u ∈ S.successorsBy s a) :=
    (mem_successorsBy_interleavingParts hS hT hs ht).mpr (Or.inl ⟨u, hu, rfl⟩)
  exact (State.product.inj (h _ a _ (hstep s' hs') _ (hstep s'' hs''))).1

theorem ActionsDecide.right_of_interleavingParts (hS : S.Valid) (hT : T.Valid)
    (hs : s ∈ S.states) (h : (S.interleavingParts T).ActionsDecide) : T.ActionsDecide := by
  intro t a t' ht' t'' ht''
  have ht := hT.source_of_step ht'
  have hstep (u : State) (hu : u ∈ T.successorsBy t a) :=
    (mem_successorsBy_interleavingParts hS hT hs ht).mpr (Or.inr ⟨u, hu, rfl⟩)
  exact (State.product.inj (h _ a _ (hstep t' ht') _ (hstep t'' ht''))).2

/-- If no action is shared, the action tells which side moves. -/
theorem ActionsDecide.interleavingParts (hS : S.Valid) (hT : T.Valid)
    (happart : ∀ a ∈ S.actions, a ∉ T.actions) (hleft : S.ActionsDecide)
    (hright : T.ActionsDecide) : (S.interleavingParts T).ActionsDecide := by
  intro w a u hu v hv
  obtain ⟨s, hs, t, ht, rfl⟩ :=
    mem_states_interleavingParts.mp ((hS.interleavingParts hT).source_of_step hu)
  rw [mem_successorsBy_interleavingParts hS hT hs ht] at hu hv
  rcases hu with ⟨s', hs', rfl⟩ | ⟨t', ht', rfl⟩
  · rcases hv with ⟨s'', hs'', rfl⟩ | ⟨t'', ht'', rfl⟩
    · rw [hleft s a s' hs' s'' hs'']
    · exact absurd (hT.action_of_step ht'') (happart a (hS.action_of_step hs'))
  · rcases hv with ⟨s'', hs'', rfl⟩ | ⟨t'', ht'', rfl⟩
    · exact absurd (hT.action_of_step ht') (happart a (hS.action_of_step hs''))
    · rw [hright t a t' ht' t'' ht'']

theorem actionsDecide_interleavingParts_iff (hS : S.Valid) (hT : T.Valid)
    (happart : ∀ a ∈ S.actions, a ∉ T.actions) (hs : s ∈ S.states) (ht : t ∈ T.states) :
    (S.interleavingParts T).ActionsDecide ↔ S.ActionsDecide ∧ T.ActionsDecide :=
  ⟨fun h => ⟨h.left_of_interleavingParts hS hT ht, h.right_of_interleavingParts hS hT hs⟩,
    fun h => h.1.interleavingParts hS hT happart h.2⟩

theorem length_initial_interleavingParts :
    (S.interleavingParts T).initial.length = S.initial.length * T.initial.length := by
  rw [interleavingParts, List.length_map]
  exact List.length_product _ _

/-- Without an initial state on one side there would be none at all. -/
theorem length_initial_interleavingParts_le_one_iff (hs : S.initial ≠ []) (ht : T.initial ≠ []) :
    (S.interleavingParts T).initial.length ≤ 1 ↔
      S.initial.length ≤ 1 ∧ T.initial.length ≤ 1 := by
  rw [← List.length_pos_iff] at hs ht
  rw [length_initial_interleavingParts]
  constructor
  · intro h
    exact ⟨(Nat.le_mul_of_pos_right _ ht).trans h, (Nat.le_mul_of_pos_left _ hs).trans h⟩
  · rintro ⟨hleft, hright⟩
    exact Nat.mul_le_mul hleft hright

theorem isActionDeterministic_interleavingParts_iff (hS : S.Valid) (hT : T.Valid)
    (happart : ∀ a ∈ S.actions, a ∉ T.actions) (hs : S.initial ≠ []) (ht : T.initial ≠ []) :
    (S.interleavingParts T).isActionDeterministic = true ↔
      S.isActionDeterministic = true ∧ T.isActionDeterministic = true := by
  obtain ⟨s, hmems⟩ := List.exists_mem_of_ne_nil _ hs
  obtain ⟨t, hmemt⟩ := List.exists_mem_of_ne_nil _ ht
  rw [isActionDeterministic_iff (hS.interleavingParts hT), isActionDeterministic_iff hS,
    isActionDeterministic_iff hT, length_initial_interleavingParts_le_one_iff hs ht,
    actionsDecide_interleavingParts_iff hS hT happart (hS.initial s hmems) (hT.initial t hmemt)]
  exact and_and_and_comm

/-- **Classes of interleavings.** One side takes an action wherever the other is, and the side may
differ from action to action; actions decide if they belong to one side each and decide there. -/
theorem classes_interleave (hS : S.Valid) (hT : T.Valid) :
    ∃ P, S.interleave T = .ok P ∧
      (P.isNonBlocking = true ↔ ∀ a ∈ P.actions,
        (∀ s ∈ S.states, S.successorsBy s a ≠ []) ∨ ∀ t ∈ T.states, T.successorsBy t a ≠ []) ∧
      ((∀ a ∈ S.actions, a ∉ T.actions) → S.initial ≠ [] → T.initial ≠ [] →
        (P.isActionDeterministic = true ↔
          S.isActionDeterministic = true ∧ T.isActionDeterministic = true)) :=
  ⟨_, interleave_eq_ok hS hT, isNonBlocking_interleavingParts_iff hS hT,
    isActionDeterministic_interleavingParts_iff hS hT⟩

/-- Goes back and forth by one action, and cannot take the other one at all. -/
def pendulum (swing stop : Action) : System :=
  .ofEntries (State.ofNames ["1", "2"]) [swing, stop]
    [(.named "1", [(swing, State.ofNames ["2", "2"])]),
      (.named "2", [(swing, State.ofNames ["1"])])]
    (State.ofNames ["1"]) [] []

/-- Two sides that each block keep each other going; two sides that share no action are
deterministic together. -/
theorem classes_interleave_pendulum :
    (pendulum ⟨"a"⟩ ⟨"b"⟩).Valid ∧ (pendulum ⟨"b"⟩ ⟨"a"⟩).Valid ∧
      (pendulum ⟨"a"⟩ ⟨"b"⟩).isNonBlocking = false ∧
      (∃ P, (pendulum ⟨"a"⟩ ⟨"b"⟩).interleave (pendulum ⟨"b"⟩ ⟨"a"⟩) = .ok P ∧
        P.isNonBlocking = true) ∧
      fork.Valid ∧ (pendulum ⟨"c"⟩ ⟨"d"⟩).Valid ∧
      (∀ a ∈ fork.actions, a ∉ (pendulum ⟨"c"⟩ ⟨"d"⟩).actions) ∧
      fork.initial ≠ [] ∧ (pendulum ⟨"c"⟩ ⟨"d"⟩).initial ≠ [] ∧
      ∃ P, fork.interleave (pendulum ⟨"c"⟩ ⟨"d"⟩) = .ok P ∧ P.isActionDeterministic = true := by
  have hab : (pendulum ⟨"a"⟩ ⟨"b"⟩).Valid := by decide
  have hba : (pendulum ⟨"b"⟩ ⟨"a"⟩).Valid := by decide
  have hfork : fork.Valid := by decide
  have hcd : (pendulum ⟨"c"⟩ ⟨"d"⟩).Valid := by decide
  have happart : ∀ a ∈ fork.actions, a ∉ (pendulum ⟨"c"⟩ ⟨"d"⟩).actions := by decide
  obtain ⟨P, hP, hblocking, _⟩ := classes_interleave hab hba
  obtain rfl : _ = P := Except.ok.inj ((interleave_eq_ok hab hba).symm.trans hP)
  obtain ⟨Q, hQ, _, hdeterministic⟩ := classes_interleave hfork hcd
  refine ⟨hab, hba, by decide, ⟨_, hP, hblocking.mpr (by decide)⟩, hfork, hcd, happart, by decide,
    by decide, Q, hQ, ?_⟩
  exact (hdeterministic happart (by decide) (by decide)).mpr (by decide)

end TransitionSystems.System
