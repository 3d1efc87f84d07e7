import Mathlib.Data.List.Nodup
import TransitionSystems.System.Validity

/-!
Which states and actions steps are made of. Whatever a step leads to is stored; in a valid system
its source, its action and its target are declared, so that the predecessors of a state are just the
states that it succeeds (`predecessors_inverse_successors`).

Successors are listed once each, and so are the predecessors by any action, however often states,
actions and targets are repeated in the system. A predecessor by one action is listed as often as it
is declared (`count_predecessorsBy`), so that repeated declarations, and nothing else, show in these
lists (`step_lists_repeats`, `predecessorsBy_repeats_declarations`).
-/
namespace TransitionSystems.System

variable {S : System} {s t : State} {a : Action}

theorem nodup_successorsBy (S : System) (s : State) (a : Action) : (S.successorsBy s a).Nodup :=
  ListSet.nodup_eraseDups _

theorem nodup_successors (S : System) (s : State) : (S.successors s).Nodup :=
  ListSet.nodup_eraseDups _

theorem mem_storedTargets : t ∈ S.storedTargets ↔ ∃ s a, t ∈ S.targets s a := by
  simp only [storedTargets, List.mem_flatMap, Prod.exists, Grid.mem_places_rows]
  constructor
  · rintro ⟨s, a, ts, hts, ht⟩
    exact ⟨s, a, by rwa [targets_of_at? hts]⟩
  · rintro ⟨s, a, ht⟩
    obtain ⟨ts, hts, ht⟩ := at?_of_mem_targets ht
    exact ⟨s, a, ts, hts, ht⟩

theorem mem_storedTargets_of_mem_successors (h : t ∈ S.successors s) : t ∈ S.storedTargets := by
  obtain ⟨a, _, ht⟩ := mem_successors.mp h
  exact mem_storedTargets.mpr ⟨s, a, mem_successorsBy.mp ht⟩

theorem mem_moves_of_mem_targets (h : t ∈ S.targets s a) : s ∈ S.moves := by
  obtain ⟨ts, hts, _⟩ := at?_of_mem_targets h
  obtain ⟨row, hrow, _⟩ := Option.bind_eq_some_iff.mp hts
  exact Table.mem_iff_exists.mpr ⟨row, hrow⟩

theorem mem_moves_of_mem_successorsBy (h : t ∈ S.successorsBy s a) : s ∈ S.moves :=
  mem_moves_of_mem_targets (mem_successorsBy.mp h)

theorem Valid.source_of_step (hS : S.Valid) (h : t ∈ S.successorsBy s a) : s ∈ S.states :=
  hS.source s (mem_moves_of_mem_successorsBy h)

theorem Valid.action_of_step (hS : S.Valid) (h : t ∈ S.successorsBy s a) : a ∈ S.actions := by
  obtain ⟨ts, hts, _⟩ := at?_of_mem_targets (mem_successorsBy.mp h)
  exact hS.action s a ts hts

theorem Valid.target_of_step (hS : S.Valid) (h : t ∈ S.successorsBy s a) : t ∈ S.states :=
  hS.target s a t (mem_successorsBy.mp h)

/-- Asking whether an action is declared changes nothing, since no other action leads anywhere. -/
theorem Valid.successorsBy_of_declared (hS : S.Valid) :
    (if a ∈ S.actions then S.successorsBy s a else []) = S.successorsBy s a := by
  split
  · rfl
  · rename_i ha
    symm
    rw [List.eq_nil_iff_forall_not_mem]
    intro t ht
    exact ha (hS.action_of_step ht)

theorem Valid.mem_successors_iff (hS : S.Valid) :
    t ∈ S.successors s ↔ ∃ a, t ∈ S.successorsBy s a := by
  rw [mem_successors]
  constructor
  · rintro ⟨a, _, ht⟩
    exact ⟨a, ht⟩
  · rintro ⟨a, ht⟩
    exact ⟨a, hS.action_of_step ht, ht⟩

theorem Valid.source_of_successor (hS : S.Valid) (h : t ∈ S.successors s) : s ∈ S.states := by
  obtain ⟨a, ht⟩ := hS.mem_successors_iff.mp h
  exact hS.source_of_step ht

theorem Valid.target_of_successor (hS : S.Valid) (h : t ∈ S.successors s) : t ∈ S.states := by
  obtain ⟨a, ht⟩ := hS.mem_successors_iff.mp h
  exact hS.target_of_step ht

/-! ## Predecessors -/

/-- Predecessors are looked for among the declared states only. -/
theorem mem_predecessorsBy_iff :
    s ∈ S.predecessorsBy t a ↔ s ∈ S.states ∧ t ∈ S.successorsBy s a := by
  rw [mem_predecessorsBy, mem_successorsBy]

theorem mem_predecessors_iff : s ∈ S.predecessors t ↔ s ∈ S.states ∧ t ∈ S.successors s := by
  simp only [mem_predecessors, mem_predecessorsBy_iff, mem_successors]
  constructor
  · rintro ⟨a, ha, hs, ht⟩
    exact ⟨hs, a, ha, ht⟩
  · rintro ⟨hs, a, ha, ht⟩
    exact ⟨a, ha, hs, ht⟩

theorem mem_predecessorsBy_iff_of_sources (hS : ∀ s ∈ S.moves, s ∈ S.states) :
    s ∈ S.predecessorsBy t a ↔ t ∈ S.successorsBy s a := by
  rw [mem_predecessorsBy_iff]
  exact and_iff_right_of_imp fun ht => hS s (mem_moves_of_mem_successorsBy ht)

theorem mem_predecessors_iff_of_sources (hS : ∀ s ∈ S.moves, s ∈ S.states) :
    s ∈ S.predecessors t ↔ t ∈ S.successors s := by
  rw [mem_predecessors_iff]
  refine and_iff_right_of_imp fun ht => ?_
  obtain ⟨a, _, ht⟩ := mem_successors.mp ht
  exact hS s (mem_moves_of_mem_successorsBy ht)

/-- **Predecessors are the inverse of successors**, by each action and by any. Only the moves have
to use declared names; the states and the action asked about need not be declared. -/
theorem predecessors_inverse_successors (hS : S.moveViolation? = none) (p s : State) :
    (∀ a, s ∈ S.successorsBy p a ↔ p ∈ S.predecessorsBy s a) ∧
      (s ∈ S.successors p ↔ p ∈ S.predecessors s) := by
  obtain ⟨hsources, _⟩ := moveViolation?_eq_none_iff.mp hS
  refine ⟨fun a => ?_, ?_⟩
  · rw [mem_predecessorsBy_iff_of_sources hsources]
  · rw [mem_predecessors_iff_of_sources hsources]

/-- It starts in a state that is not declared, but its moves stay inside. -/
def looseStart : System :=
  .ofEntries (State.ofNames ["1", "2", "2"]) [⟨"a"⟩, ⟨"b"⟩]
    [(.named "1", [(⟨"a"⟩, State.ofNames ["2", "2"])])] (State.ofNames ["9"]) [] []

theorem predecessors_inverse_successors_looseStart :
    looseStart.moveViolation? = none ∧ ¬looseStart.Valid ∧
      State.named "1" ∈ looseStart.predecessorsBy (.named "2") ⟨"a"⟩ ∧
      State.named "1" ∈ looseStart.predecessors (.named "2") ∧
      State.named "2" ∉ looseStart.successors (.named "9") := by
  have hmoves : looseStart.moveViolation? = none := by decide
  obtain ⟨hby, hany⟩ := predecessors_inverse_successors hmoves (.named "1") (.named "2")
  obtain ⟨_, hundeclared⟩ := predecessors_inverse_successors hmoves (.named "9") (.named "2")
  exact ⟨hmoves, by decide, (hby _).mp (by decide), hany.mp (by decide),
    fun h => absurd (hundeclared.mp h) (by decide)⟩

/-- A move from a state that is not declared is not found backwards. -/
example :
    let S : System :=
      .ofEntries [.named "1"] [⟨"a"⟩] [(.named "9", [(⟨"a"⟩, [.named "1"])])] [] [] []
    State.named "1" ∈ S.successors (.named "9") ∧
      State.named "9" ∉ S.predecessors (.named "1") := by
  decide

/-! ## Repeats -/

theorem nodup_predecessors (S : System) (s : State) : (S.predecessors s).Nodup :=
  ListSet.nodup_eraseDups _

theorem count_predecessorsBy (S : System) (s : State) (a : Action) (p : State) :
    (S.predecessorsBy s a).count p = if s ∈ S.successorsBy p a then S.states.count p else 0 := by
  split
  · rename_i hs
    exact List.count_filter (decide_eq_true (mem_successorsBy.mp hs))
  · rename_i hs
    exact List.count_eq_zero.mpr fun hp => hs (mem_predecessorsBy_iff.mp hp).2

theorem nodup_predecessorsBy_iff : (S.predecessorsBy s a).Nodup ↔
    ∀ p, s ∈ S.successorsBy p a → S.states.count p ≤ 1 := by
  rw [List.nodup_iff_count_le_one]
  refine forall_congr' fun p => ?_
  rw [count_predecessorsBy]
  split
  · rename_i hs
    exact (imp_iff_right hs).symm
  · rename_i hs
    exact iff_of_true (Nat.zero_le 1) fun h => absurd h hs

/-- **Repeats among successors and predecessors.** Only the predecessors by one action can be listed
twice: each of them is listed as often as it is declared. -/
theorem step_lists_repeats (S : System) :
    (∀ s a, (S.successorsBy s a).Nodup) ∧ (∀ s, (S.successors s).Nodup) ∧
    (∀ s, (S.predecessors s).Nodup) ∧
    (∀ s a p, (S.predecessorsBy s a).count p =
      if s ∈ S.successorsBy p a then S.states.count p else 0) ∧
    (∀ s a, (S.predecessorsBy s a).Nodup ↔
      ∀ p, s ∈ S.successorsBy p a → S.states.count p ≤ 1) :=
  ⟨nodup_successorsBy S, nodup_successors S, nodup_predecessors S, count_predecessorsBy S,
    fun _ _ => nodup_predecessorsBy_iff⟩

/-- A single state with a loop, which is declared twice. -/
def twiceDeclared : System :=
  .ofEntries (State.ofNames ["1", "1"]) [⟨"a"⟩]
    [(.named "1", [(⟨"a"⟩, State.ofNames ["1"])])] (State.ofNames ["1"]) [] []

/-- The state is its own only predecessor, but is listed twice among those by the action. -/
theorem predecessorsBy_repeats_declarations :
    twiceDeclared.Valid ∧
      twiceDeclared.predecessors (.named "1") = State.ofNames ["1"] ∧
      twiceDeclared.predecessorsBy (.named "1") ⟨"a"⟩ = State.ofNames ["1", "1"] ∧
      ¬(twiceDeclared.predecessorsBy (.named "1") ⟨"a"⟩).Nodup := by
  decide

end TransitionSystems.System
