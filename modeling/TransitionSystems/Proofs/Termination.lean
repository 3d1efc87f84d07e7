import Mathlib.Data.Finset.Card
import TransitionSystems.Proofs.BreadthFirst

/-!
Why both searches for reachable states come to an end, in any system, valid or not. Backwards, the
frontiers of different rounds have no state in common (`Search.disjoint_frontier_rounds`), and all
of them together only have declared states besides the one that the search starts from. Forwards,
the list that is read while it grows never lists a state twice, and lists initial states and stored
targets only (`Worklist.Within.run`). So the number of rounds, and the number of states read, are
bounded by the number of states that can be found at all (`searches_end`).
-/
namespace TransitionSystems

namespace Search

variable {α : Type} {next : α → List α} {goal : α → Bool} {xs : List α} {s : Search α}
  {m n : Nat} {answer answer' : Bool}

/-! ## Frontiers -/

section
variable [DecidableEq α]

theorem nodup_frontier_rounds (next : α → List α) (xs : List α) (n : Nat) :
    (rounds next n (start xs)).frontier.Nodup := by
  obtain ⟨before, hfound, _⟩ := Worklist.exists_run_start next xs n
  have hnodup := ((invariant_start next xs).rounds n).nodup
  rw [hfound] at hnodup
  exact (List.nodup_append.mp hnodup).2.1

/-- A frontier is what its number of steps leads to and no fewer do, so no other round has any of
it. -/
theorem disjoint_frontier_rounds (next : α → List α) (xs : List α) (h : m ≠ n) :
    (rounds next m (start xs)).frontier.Disjoint (rounds next n (start xs)).frontier := by
  intro x hm hn
  exact h (((mem_frontier_rounds_iff m).mp hm).unique ((mem_frontier_rounds_iff n).mp hn))

/-! ## Rounds -/

/-- The search that stands at `s` is over after `n` more rounds. A round goes on from a frontier; it
is the last one, and the answer is yes, if a neighbour of the frontier meets the goal. Without a
frontier there is no round, and the answer is no. -/
inductive Ends (next : α → List α) (goal : α → Bool) : Search α → Nat → Bool → Prop
  | exhausted {s : Search α} (hover : s.frontier = []) : Ends next goal s 0 false
  | met {s : Search α} (hopen : s.frontier ≠ [])
      (hgoal : (s.neighbours next).any goal = true) : Ends next goal s 1 true
  | round {s : Search α} {n : Nat} {answer : Bool} (hopen : s.frontier ≠ [])
      (hgoal : (s.neighbours next).any goal = false)
      (hrest : Ends next goal (s.advance next) n answer) : Ends next goal s (n + 1) answer

theorem Ends.unique (h : Ends next goal s n answer) (h' : Ends next goal s m answer') :
    m = n ∧ answer' = answer := by
  induction h generalizing m with
  | exhausted hover =>
    cases h' with
    | exhausted => exact ⟨rfl, rfl⟩
    | met hopen => exact absurd hover hopen
    | round hopen => exact absurd hover hopen
  | met hopen hgoal =>
    cases h' with
    | exhausted hover => exact absurd hover hopen
    | met => exact ⟨rfl, rfl⟩
    | round _ hgoal' => simp [hgoal] at hgoal'
  | round hopen hgoal _ ih =>
    cases h' with
    | exhausted hover => exact absurd hover hopen
    | met _ hgoal' => simp [hgoal] at hgoal'
    | round _ _ hrest =>
      obtain ⟨rfl, rfl⟩ := ih hrest
      exact ⟨rfl, rfl⟩

/-- A search ends before the first round that has no frontier to go on from. -/
theorem exists_ends (next : α → List α) (goal : α → Bool)
    (h : (rounds next n s).frontier = []) : ∃ m ≤ n, ∃ answer, Ends next goal s m answer := by
  induction n generalizing s with
  | zero => exact ⟨0, Nat.le_refl 0, false, .exhausted h⟩
  | succ n ih =>
    by_cases hopen : s.frontier = []
    · exact ⟨0, Nat.zero_le _, false, .exhausted hopen⟩
    · cases hgoal : (s.neighbours next).any goal with
      | true => exact ⟨1, Nat.succ_le_succ (Nat.zero_le n), true, .met hopen hgoal⟩
      | false =>
        obtain ⟨m, hm, answer, hrest⟩ := ih h
        exact ⟨m + 1, Nat.succ_le_succ hm, answer, .round hopen hgoal hrest⟩

theorem meets_of_frontier_eq_nil (hover : s.frontier = []) (n : Nat) :
    meets next goal n s = false := by
  induction n generalizing s with
  | zero => rfl
  | succ n ih =>
    have hnone : s.neighbours next = [] := by simp [neighbours, hover]
    have hnext : (s.advance next).frontier = [] := by simp [Search.advance, hnone]
    rw [meets, hnone, ih hnext]
    rfl

/-- A search that is given at least the rounds that it takes finds its answer. -/
theorem Ends.meets_eq (h : Ends next goal s n answer) (hn : n ≤ m) :
    meets next goal m s = answer := by
  induction h generalizing m with
  | exhausted hover => exact meets_of_frontier_eq_nil hover m
  | met _ hgoal =>
    obtain ⟨k, rfl⟩ := Nat.exists_eq_add_of_le' hn
    rw [meets, hgoal, Bool.true_or]
  | @round s k answer _ hgoal _ ih =>
    obtain ⟨j, rfl⟩ := Nat.exists_eq_add_of_le' (Nat.le_trans (Nat.le_add_left 1 k) hn)
    rw [meets, hgoal, Bool.false_or]
    exact ih (Nat.le_of_succ_le_succ hn)

end

end Search

/-! ## Worklists -/

namespace Worklist

variable {α : Type}

/-- Nothing is listed twice, and whatever is listed has the property `P`. -/
structure Within (P : α → Prop) (w : Worklist α) : Prop where
  nodup : w.found.Nodup
  found : ∀ x ∈ w.found, P x

variable [DecidableEq α] {next : α → List α} {P : α → Prop} {w : Worklist α}

theorem within_start {xs : List α} (h : ∀ x ∈ xs, P x) : (start xs).Within P where
  nodup := ListSet.nodup_addEach_snd List.nodup_nil xs
  found := by
    intro x hx
    rcases ListSet.mem_addEach_snd.mp hx with hx | hx
    · cases hx
    · exact h x hx

theorem Within.step (h : w.Within P) (hnext : ∀ x, ∀ y ∈ next x, P y) : (w.step next).Within P := by
  rw [Worklist.step]
  cases hread : w.found[w.read]? with
  | none => exact h
  | some x =>
    refine ⟨ListSet.nodup_addEach_snd h.nodup (next x), ?_⟩
    intro y hy
    rcases ListSet.mem_addEach_snd.mp hy with hy | hy
    · exact h.found y hy
    · exact hnext x y hy

theorem Within.run (h : w.Within P) (hnext : ∀ x, ∀ y ∈ next x, P y) (n : Nat) :
    (run next n w).Within P := by
  induction n generalizing w with
  | zero => exact h
  | succ n ih => exact ih (h.step hnext)

end Worklist

/-! ## Systems -/

namespace System

/-- What the search backwards from `s` goes on from after `n` rounds. -/
def frontier (S : System) (s : State) (n : Nat) : List State :=
  (Search.rounds S.predecessors n (.start [s])).frontier

theorem mem_of_mem_frontier {S : System} {s t : State} {n : Nat} (h : t ∈ S.frontier s n) :
    t ∈ s :: S.states := by
  have hinv := Search.invariant_start S.predecessors [s]
  refine Search.forall_mem_found_rounds (P := (· ∈ s :: S.states)) hinv ?_
    (fun _ _ _ hp => predecessors_within hp) n t ((hinv.rounds n).frontier t h)
  intro t ht
  exact List.mem_cons.mpr (.inl (List.mem_singleton.mp (List.mem_eraseDups.mp ht)))

/-- Each round but the last finds a state, so there are at most as many as states to be found. -/
theorem exists_ends_le_card (S : System) (s : State) : ∃ n ≤ (s :: S.states).toFinset.card,
    ∃ answer, Search.Ends S.predecessors S.isInitial (.start [s]) n answer := by
  refine Search.exists_ends S.predecessors S.isInitial
    (Search.frontier_rounds_eq_nil (U := (s :: S.states).dedup)
      (Search.invariant_start _ _) ?_ ?_ (Nat.le_of_eq (List.card_toFinset _).symm))
  · intro t ht
    rw [List.mem_dedup]
    exact mem_of_mem_frontier (n := 0) ht
  · intro t _ p hp
    rw [List.mem_dedup]
    exact predecessors_within hp

theorem isReachable_eq_of_ends {S : System} {s : State} {n : Nat} {answer : Bool}
    (hn : n ≤ (s :: S.states).toFinset.card)
    (h : Search.Ends S.predecessors S.isInitial (.start [s]) n answer) :
    S.isReachable s = (S.isInitial s || answer) := by
  have hgiven : n ≤ S.backwardRounds :=
    hn.trans ((List.toFinset_card_le _).trans (S.length_le_backwardRounds s))
  rw [isReachable, h.meets_eq hgiven]

theorem within_run_successors (S : System) (n : Nat) :
    (Worklist.run S.successors n (.start S.initial)).Within
      (· ∈ S.initial ++ S.storedTargets) := by
  exact (Worklist.within_start fun s hs => List.mem_append_left _ hs).run
    (fun _ _ ht => successors_within ht) n

theorem length_reachableStates_le_card (S : System) :
    S.reachableStates.length ≤ (S.initial ++ S.storedTargets).toFinset.card := by
  have hover := run_worklist_eq S 0
  have hwithin := (within_run_successors S (S.reachableStates.length + 0)).found
  rw [hover] at hwithin
  rw [← List.toFinset_card_of_nodup (nodup_reachableStates S)]
  refine Finset.card_le_card fun s hs => ?_
  exact List.mem_toFinset.mpr (hwithin s (List.mem_toFinset.mp hs))

/-- **Both searches end in every system.** Backwards, no frontier repeats a state or has one of an
earlier frontier, and all have declared states only, besides the state asked about; so the search
ends, in one way, after at most as many rounds as there are such states, and answers as it ends.
Forwards, the list of found states is always without repeats, and has initial states and stored
targets only; so all of it has been read after at most as many steps as there are such states. -/
theorem searches_end (S : System) :
    (∀ s,
      (∀ n, (S.frontier s n).Nodup ∧ ∀ t ∈ S.frontier s n, t = s ∨ t ∈ S.states) ∧
      (∀ m n, m ≠ n → (S.frontier s m).Disjoint (S.frontier s n)) ∧
      ∃ n ≤ (s :: S.states).toFinset.card, ∃ answer,
        (∀ m b, Search.Ends S.predecessors S.isInitial (.start [s]) m b ↔ m = n ∧ b = answer) ∧
        S.isReachable s = (S.isInitial s || answer)) ∧
    (∀ n, (Worklist.run S.successors n (.start S.initial)).found.Nodup ∧
      ∀ t ∈ (Worklist.run S.successors n (.start S.initial)).found,
        t ∈ S.initial ∨ t ∈ S.storedTargets) ∧
    ∃ n ≤ (S.initial ++ S.storedTargets).toFinset.card,
      Worklist.run S.successors n (.start S.initial) = ⟨S.reachableStates, n⟩ ∧
      S.reachableStates.length = n := by
  refine ⟨fun s => ⟨?_, ?_, ?_⟩, ?_, ?_⟩
  · intro n
    exact ⟨Search.nodup_frontier_rounds _ _ n,
      fun t ht => List.mem_cons.mp (mem_of_mem_frontier ht)⟩
  · intro m n hne
    exact Search.disjoint_frontier_rounds _ _ hne
  · obtain ⟨n, hn, answer, hends⟩ := exists_ends_le_card S s
    refine ⟨n, hn, answer, fun m b => ⟨hends.unique, ?_⟩, isReachable_eq_of_ends hn hends⟩
    rintro ⟨rfl, rfl⟩
    exact hends
  · intro n
    have hwithin := within_run_successors S n
    exact ⟨hwithin.nodup, fun t ht => List.mem_append.mp (hwithin.found t ht)⟩
  · exact ⟨S.reachableStates.length, length_reachableStates_le_card S, run_worklist_eq S 0, rfl⟩

/-- A cycle of two states, one of them declared twice, that is entered from a state and left to a
state that are not declared. -/
def openCycle : System :=
  .ofEntries (State.ofNames ["1", "2", "1"]) [⟨"a"⟩]
    [(.named "1", [(⟨"a"⟩, State.ofNames ["2", "9", "2"])]),
      (.named "2", [(⟨"a"⟩, State.ofNames ["1"])]),
      (.named "8", [(⟨"a"⟩, State.ofNames ["1"])])]
    (State.ofNames ["8", "8"]) [] []

theorem searches_end_openCycle :
    ¬openCycle.Valid ∧
    openCycle.frontier (.named "9") 2 = State.ofNames ["2"] ∧
    (∀ t ∈ openCycle.frontier (.named "9") 2, t = .named "9" ∨ t ∈ openCycle.states) ∧
    (openCycle.frontier (.named "9") 1).Disjoint (openCycle.frontier (.named "9") 2) ∧
    (∃ n ≤ 3, ∃ answer, Search.Ends openCycle.predecessors openCycle.isInitial
        (.start [.named "9"]) n answer ∧ openCycle.isReachable (.named "9") = answer) ∧
    ∃ n ≤ 4, Worklist.run openCycle.successors n (.start openCycle.initial) =
      ⟨State.ofNames ["8", "1", "2", "9"], n⟩ := by
  obtain ⟨hback, _, k, hk, hrun, _⟩ := searches_end openCycle
  obtain ⟨hfrontier, hdisjoint, n, hn, answer, hends, hanswer⟩ := hback (.named "9")
  have hfound : openCycle.reachableStates = State.ofNames ["8", "1", "2", "9"] := by decide
  have hnot : openCycle.isInitial (.named "9") = false := by decide
  have hback_card : (State.named "9" :: openCycle.states).toFinset.card = 3 := by decide
  have hforward_card : (openCycle.initial ++ openCycle.storedTargets).toFinset.card = 4 := by decide
  rw [hback_card] at hn
  rw [hforward_card] at hk
  rw [hfound] at hrun
  rw [hnot, Bool.false_or] at hanswer
  exact ⟨by decide, by decide, (hfrontier 2).2, hdisjoint 1 2 (by decide),
    ⟨n, hn, answer, (hends n answer).mpr ⟨rfl, rfl⟩, hanswer⟩, k, hk, hrun⟩

end System

end TransitionSystems
