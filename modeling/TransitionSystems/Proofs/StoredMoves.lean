import Mathlib.Data.List.Nodup
import Mathlib.Data.Set.Card
import TransitionSystems.Proofs.Steps

/-!
Stored moves, one by one. Each stored target is listed with its source and its action, so that a
move is listed just if a step leads along it (`mem_storedMoves`), as often as its target is stored;
moves are in ascending order of sources and actions (`listsMoves_storedMoves`). Where no list of
targets has repeats no move is listed twice (`nodup_storedMoves_iff`), and there are as many moves
as steps; then systems that can be renamed into each other have equally many moves
(`moveCount_eq_of_involutive`).
-/
namespace TransitionSystems.System

def storedMoves (S : System) : List (State × Action × State) :=
  (Grid.places S.moves.rows).flatMap fun (s, a, ts) => ts.map fun t => (s, a, t)

/-- The moves go by ascending sources and actions, and by each action to its targets in the order in
which they are stored. -/
structure ListsMoves (S : System) (moves : List (State × Action × State)) : Prop where
  ordered : moves.Pairwise fun m n => compare m.1 n.1 = .lt ∨
    m.1 = n.1 ∧ (compare m.2.1 n.2.1 = .lt ∨ m.2.1 = n.2.1)
  targets : ∀ s a, moves.filter (fun m => m.1 = s ∧ m.2.1 = a) =
    (S.targets s a).map fun t => (s, a, t)

/-- A source, an action and a target make one step, however often the target is stored. -/
def steps (S : System) : Set (State × Action × State) :=
  {move | move.2.2 ∈ S.successorsBy move.1 move.2.1}

def renameMove (f : State → State) (move : State × Action × State) : State × Action × State :=
  (f move.1, move.2.1, f move.2.2)

variable {S T : System} {s t : State} {a : Action}

theorem length_storedMoves : S.storedMoves.length = S.moveCount := by
  simp only [storedMoves, moveCount, storedTargets, List.length_flatMap, List.length_map]

theorem mem_storedMoves : (s, a, t) ∈ S.storedMoves ↔ t ∈ S.targets s a := by
  simp only [storedMoves, List.mem_flatMap, List.mem_map, Prod.exists, Grid.mem_places_rows]
  constructor
  · rintro ⟨s', a', ts, hts, t', ht, heq⟩
    cases heq
    rwa [targets_of_at? hts]
  · intro ht
    obtain ⟨ts, hts, ht⟩ := at?_of_mem_targets ht
    exact ⟨s, a, ts, hts, t, ht, rfl⟩

theorem ordered_storedMoves (S : System) : S.storedMoves.Pairwise fun m n =>
    compare m.1 n.1 = .lt ∨ m.1 = n.1 ∧ (compare m.2.1 n.2.1 = .lt ∨ m.2.1 = n.2.1) := by
  rw [storedMoves, List.pairwise_flatMap]
  constructor
  · rintro ⟨s, a, ts⟩ _
    rw [List.pairwise_map]
    exact List.pairwise_of_forall fun _ _ => .inr ⟨rfl, .inr rfl⟩
  · refine (Grid.ordered_places_rows S.moves).imp ?_
    intro p q hlt m hm n hn
    obtain ⟨_, _, rfl⟩ := List.mem_map.mp hm
    obtain ⟨_, _, rfl⟩ := List.mem_map.mp hn
    exact hlt.imp_right fun h => ⟨h.1, .inl h.2⟩

/-- Other places list no moves from `s` by `a`. -/
theorem filter_moves_eq_nil {places : List (State × Action × List State)}
    (h : ∀ p ∈ places, ¬(p.1 = s ∧ p.2.1 = a)) :
    (places.flatMap fun (s, a, ts) => ts.map fun t => (s, a, t)).filter
      (fun m => m.1 = s ∧ m.2.1 = a) = [] := by
  rw [List.filter_eq_nil_iff]
  intro m hm
  obtain ⟨p, hp, hm⟩ := List.mem_flatMap.mp hm
  obtain ⟨t, _, rfl⟩ := List.mem_map.mp hm
  rw [decide_eq_true_eq]
  exact h p hp

theorem filter_storedMoves (S : System) (s : State) (a : Action) :
    S.storedMoves.filter (fun m => m.1 = s ∧ m.2.1 = a) =
      (S.targets s a).map fun t => (s, a, t) := by
  rw [storedMoves, targets]
  cases hplace : S.moves.at? s a with
  | none =>
    refine filter_moves_eq_nil ?_
    rintro ⟨s', a', ts⟩ hp ⟨rfl, rfl⟩
    rw [Grid.mem_places_rows, hplace] at hp
    cases hp
  | some ts =>
    -- the place is listed once, so nothing before or after it is about `s` and `a`
    obtain ⟨before, after, hsplit⟩ := List.mem_iff_append.mp (Grid.mem_places_rows.mpr hplace)
    have hdistinct := Grid.pairwise_places_rows S.moves
    rw [hsplit, List.pairwise_append, List.pairwise_cons] at hdistinct
    obtain ⟨_, ⟨hafter, _⟩, hbefore⟩ := hdistinct
    have hhere : (ts.map fun t => (s, a, t)).filter (fun m => m.1 = s ∧ m.2.1 = a) =
        ts.map fun t => (s, a, t) := by simp
    rw [hsplit, List.flatMap_append, List.flatMap_cons, List.filter_append, List.filter_append,
      hhere, filter_moves_eq_nil fun p hp => hbefore p hp _ List.mem_cons_self,
      filter_moves_eq_nil fun p hp h => hafter p hp ⟨h.1.symm, h.2.symm⟩]
    simp

theorem listsMoves_storedMoves (S : System) : S.ListsMoves S.storedMoves where
  ordered := ordered_storedMoves S
  targets := filter_storedMoves S

theorem count_storedMoves (S : System) (s : State) (a : Action) (t : State) :
    S.storedMoves.count (s, a, t) = (S.targets s a).count t := by
  have hinjective : Function.Injective fun t : State => (s, a, t) := by
    intro t t' heq
    cases heq
    rfl
  rw [← List.count_filter (p := fun m => m.1 = s ∧ m.2.1 = a) (decide_eq_true ⟨rfl, rfl⟩),
    filter_storedMoves, List.count_map_of_injective _ _ hinjective]

theorem nodup_storedMoves_iff : S.storedMoves.Nodup ↔ ∀ s a, (S.targets s a).Nodup := by
  simp only [List.nodup_iff_count_le_one, Prod.forall, count_storedMoves]

theorem ncard_steps (S : System) : S.steps.ncard = S.storedMoves.toFinset.card := by
  rw [← Set.ncard_coe_finset]
  congr 1
  ext ⟨s, a, t⟩
  rw [Finset.mem_coe, List.mem_toFinset, mem_storedMoves, ← mem_successorsBy]
  rfl

theorem moveCount_eq_ncard_steps_iff :
    S.moveCount = S.steps.ncard ↔ ∀ s a, (S.targets s a).Nodup := by
  rw [← length_storedMoves, ncard_steps, ← nodup_storedMoves_iff, eq_comm]
  exact Multiset.toFinset_card_eq_card_iff_nodup

/-- A renaming that undoes itself takes the moves of `S` to those of `T`. -/
theorem moveCount_eq_of_involutive {f : State → State} (hf : Function.Involutive f)
    (hS : ∀ s a, (S.targets s a).Nodup) (hT : ∀ s a, (T.targets s a).Nodup)
    (hsteps : ∀ s a t, t ∈ T.targets s a ↔ f t ∈ S.targets (f s) a) :
    T.moveCount = S.moveCount := by
  have hrename : Function.Involutive (renameMove f) := by
    rintro ⟨s, a, t⟩
    rw [renameMove, renameMove, hf s, hf t]
  have hperm : T.storedMoves.Perm (S.storedMoves.map (renameMove f)) := by
    rw [List.perm_ext_iff_of_nodup (nodup_storedMoves_iff.mpr hT)
      ((nodup_storedMoves_iff.mpr hS).map hrename.injective)]
    rintro ⟨s, a, t⟩
    rw [List.mem_map_of_involutive hrename, renameMove, mem_storedMoves, mem_storedMoves, hsteps]
  rw [← length_storedMoves, ← length_storedMoves, hperm.length_eq, List.length_map]

end TransitionSystems.System
