import Mathlib.Order.Lattice.Nat
import TransitionSystems.Proofs.Reachability

/-!
Breadth-first order. After `n` rounds a search has found what at most `n` steps lead to, and its
frontier is what no fewer do (`mem_found_rounds_iff`, `mem_frontier_rounds_iff`); so it lists what
it finds by distance from its start (`pairwise_distance_found_rounds`). A list that is read from the
front while it grows at its end, one element at a time, comes to the same order
(`Worklist.run_start`). The states that a system can reach are therefore listed breadth-first, by
either way of searching (`reachableStates_breadthFirst`).
-/
namespace TransitionSystems

namespace Search

variable {α : Type} {next : α → List α} {xs : List α} {x y : α} {n : Nat}

/-- Some sequence of `n` steps from element to neighbour leads from an element of `xs` to the last
argument. -/
inductive LeadsIn (next : α → List α) (xs : List α) : Nat → α → Prop
  | start {x : α} : x ∈ xs → LeadsIn next xs 0 x
  | step {n : Nat} {x y : α} : LeadsIn next xs n x → y ∈ next x → LeadsIn next xs (n + 1) y

/-- The least number of steps that lead from an element of `xs` to `x`. -/
noncomputable def distance (next : α → List α) (xs : List α) (x : α) : Nat :=
  sInf {n | LeadsIn next xs n x}

theorem leadsIn_zero_iff : LeadsIn next xs 0 x ↔ x ∈ xs := by
  constructor
  · rintro ⟨hx⟩
    exact hx
  · exact .start

theorem leadsIn_succ_iff : LeadsIn next xs (n + 1) y ↔ ∃ x, LeadsIn next xs n x ∧ y ∈ next x := by
  constructor
  · intro h
    cases h with
    | step hx hy => exact ⟨_, hx, hy⟩
  · rintro ⟨x, hx, hy⟩
    exact .step hx hy

theorem exists_leadsIn_iff : (∃ n, LeadsIn next xs n x) ↔ ∃ y ∈ xs, Leads next y x := by
  constructor
  · rintro ⟨n, h⟩
    induction h with
    | start hx => exact ⟨_, hx, .refl⟩
    | step _ hy ih =>
      obtain ⟨z, hz, hlead⟩ := ih
      exact ⟨z, hz, hlead.tail hy⟩
  · rintro ⟨y, hy, hlead⟩
    induction hlead with
    | refl => exact ⟨0, .start hy⟩
    | tail _ hstep ih =>
      obtain ⟨n, hn⟩ := ih
      exact ⟨n + 1, hn.step hstep⟩

theorem LeadsIn.isLeast_distance (h : LeadsIn next xs n x) :
    IsLeast {m | LeadsIn next xs m x} (distance next xs x) :=
  ⟨Nat.sInf_mem ⟨n, h⟩, fun _ hm => Nat.sInf_le hm⟩

/-! ## Rounds -/

variable [DecidableEq α]

theorem mem_found_rounds_iff (n : Nat) :
    x ∈ (rounds next n (start xs)).found ↔ ∃ m ≤ n, LeadsIn next xs m x := by
  induction n generalizing x with
  | zero =>
    rw [rounds, start, List.mem_eraseDups]
    constructor
    · intro hx
      exact ⟨0, Nat.le_refl 0, .start hx⟩
    · rintro ⟨m, hm, h⟩
      obtain rfl : m = 0 := by omega
      exact leadsIn_zero_iff.mp h
  | succ n ih =>
    have hinv := (invariant_start next xs).rounds n
    rw [rounds_succ, mem_found_advance, ih]
    constructor
    · rintro (⟨m, hm, h⟩ | ⟨y, hy, hx⟩)
      · exact ⟨m, by omega, h⟩
      · obtain ⟨m, hm, h⟩ := ih.mp (hinv.frontier y hy)
        exact ⟨m + 1, by omega, h.step hx⟩
    · rintro ⟨m, hm, h⟩
      cases h with
      | start hx => exact .inl ⟨0, by omega, .start hx⟩
      | @step m y _ h hx =>
        -- The state before may have left the frontier, but then all its neighbours are found.
        have hy := ih.mpr ⟨m, by omega, h⟩
        by_cases hfrontier : y ∈ (rounds next n (start xs)).frontier
        · exact .inr ⟨y, hfrontier, hx⟩
        · exact .inl (ih.mp (hinv.closed y hy hfrontier x hx))

theorem mem_frontier_rounds_iff (n : Nat) :
    x ∈ (rounds next n (start xs)).frontier ↔ IsLeast {m | LeadsIn next xs m x} n := by
  induction n generalizing x with
  | zero =>
    rw [rounds, start, List.mem_eraseDups]
    exact ⟨fun hx => ⟨.start hx, fun m _ => Nat.zero_le m⟩, fun h => leadsIn_zero_iff.mp h.1⟩
  | succ n ih =>
    rw [rounds_succ, mem_frontier_advance, mem_found_rounds_iff]
    constructor
    · rintro ⟨⟨y, hy, hx⟩, hnew⟩
      refine ⟨LeadsIn.step (ih.mp hy).1 hx, fun m hm => ?_⟩
      by_contra hlt
      exact hnew ⟨m, by omega, hm⟩
    · rintro ⟨h, hleast⟩
      obtain ⟨y, hy, hx⟩ := leadsIn_succ_iff.mp h
      refine ⟨⟨y, ih.mpr ⟨hy, fun m hm => ?_⟩, hx⟩, ?_⟩
      · have := hleast (LeadsIn.step hm hx)
        omega
      · rintro ⟨m, hm, hx⟩
        have := hleast hx
        omega

theorem distance_le_of_mem_found_rounds (h : x ∈ (rounds next n (start xs)).found) :
    distance next xs x ≤ n := by
  obtain ⟨m, hm, hx⟩ := (mem_found_rounds_iff n).mp h
  exact (Nat.sInf_le hx).trans hm

theorem distance_eq_of_mem_frontier_rounds (h : x ∈ (rounds next n (start xs)).frontier) :
    distance next xs x = n :=
  ((mem_frontier_rounds_iff n).mp h).csInf_eq

/-- What a round adds is farther from the start than all that was found before. -/
theorem pairwise_distance_found_rounds (next : α → List α) (xs : List α) (n : Nat) :
    (rounds next n (start xs)).found.Pairwise
      fun x y => distance next xs x ≤ distance next xs y := by
  induction n with
  | zero =>
    have hzero (x : α) (hx : x ∈ (start xs).found) : distance next xs x ≤ 0 :=
      distance_le_of_mem_found_rounds (n := 0) hx
    exact List.pairwise_of_forall_mem_list fun x hx y _ => (hzero x hx).trans (Nat.zero_le _)
  | succ n ih =>
    have hfar (y : α) (hy : y ∈ ((rounds next n (start xs)).advance next).frontier) :
        distance next xs y = n + 1 := by
      rw [← rounds_succ] at hy
      exact distance_eq_of_mem_frontier_rounds hy
    rw [rounds_succ]
    refine List.pairwise_append.mpr ⟨ih, ?_, ?_⟩
    · refine List.pairwise_of_forall_mem_list fun x hx y hy => ?_
      rw [hfar x hx, hfar y hy]
    · intro x hx y hy
      have := distance_le_of_mem_found_rounds hx
      rw [hfar y hy]
      omega

theorem prefix_found_rounds (next : α → List α) (xs : List α) (n : Nat) :
    xs.eraseDups <+: (rounds next n (start xs)).found := by
  induction n with
  | zero => exact List.prefix_rfl
  | succ n ih =>
    rw [rounds_succ]
    exact ih.trans (List.prefix_append _ _)

end Search

/-! ## Worklists -/

/-- A list whose first `read` elements have been read. -/
structure Worklist (α : Type) where
  found : List α
  read : Nat

namespace Worklist

variable {α : Type} [DecidableEq α]

def start (xs : List α) : Worklist α := ⟨(ListSet.addEach [] xs).2, 0⟩

/-- Reads the next element, if there is one left, and adds its neighbours at the end. -/
def step (next : α → List α) (w : Worklist α) : Worklist α :=
  match w.found[w.read]? with
  | none => w
  | some x => ⟨(ListSet.addEach w.found (next x)).2, w.read + 1⟩

def run (next : α → List α) : Nat → Worklist α → Worklist α
  | 0, w => w
  | n + 1, w => run next n (w.step next)

variable {next : α → List α}

theorem run_add (m n : Nat) (w : Worklist α) : run next (m + n) w = run next n (run next m w) := by
  induction m generalizing w with
  | zero => rw [Nat.zero_add, run]
  | succ m ih => rw [Nat.succ_add, run, run, ih]

theorem run_of_read_all {w : Worklist α} (hw : w.found.length ≤ w.read) (n : Nat) :
    run next n w = w := by
  induction n with
  | zero => rfl
  | succ n ih =>
    have hstep : w.step next = w := by simp [step, List.getElem?_eq_none hw]
    rw [run, hstep, ih]

/-- To read some elements one after the other is to add the neighbours of all of them. -/
theorem run_part (next : α → List α) (before part after : List α) :
    run next part.length ⟨before ++ part ++ after, before.length⟩ =
      ⟨(ListSet.addEach (before ++ part ++ after) (part.flatMap next)).2,
        before.length + part.length⟩ := by
  induction part generalizing before after with
  | nil => simp [run, ListSet.addEach]
  | cons x part ih =>
    let all := before ++ x :: part ++ after
    have hadded : (ListSet.addEach all (next x)).2 =
        before ++ [x] ++ part ++ (after ++ ((next x).filter (· ∉ all)).eraseDups) := by
      rw [ListSet.addEach_snd]
      simp [all]
    have hstep : step next ⟨all, before.length⟩ =
        ⟨(ListSet.addEach all (next x)).2, (before ++ [x]).length⟩ := by
      simp [step, all]
    have hread : (before ++ [x]).length + part.length = before.length + (x :: part).length := by
      simp only [List.length_append, List.length_cons, List.length_nil]
      omega
    calc run next (x :: part).length ⟨all, before.length⟩
        = run next part.length ⟨(ListSet.addEach all (next x)).2, (before ++ [x]).length⟩ := by
          rw [List.length_cons, run, hstep]
      _ = ⟨(ListSet.addEach (ListSet.addEach all (next x)).2 (part.flatMap next)).2,
            (before ++ [x]).length + part.length⟩ := by rw [hadded, ih]
      _ = ⟨(ListSet.addEach all ((x :: part).flatMap next)).2,
            before.length + (x :: part).length⟩ := by
          rw [List.flatMap_cons, ListSet.addEach_append_snd, hread]

/-- One round of a search reads its frontier. -/
theorem run_frontier (before : List α) {s : Search α} (hs : s.found = before ++ s.frontier) :
    run next s.frontier.length ⟨s.found, before.length⟩ =
      ⟨(s.advance next).found, s.found.length⟩ := by
  have hpart := run_part next before s.frontier []
  rw [List.append_nil, ← hs] at hpart
  rw [hpart, ListSet.addEach_snd, ListSet.eraseDups_filter, ← List.length_append, ← hs]
  rfl

/-- After some rounds the search has found what the worklist has when it comes to the frontier. -/
theorem exists_run_start (next : α → List α) (xs : List α) (n : Nat) :
    ∃ before, (Search.rounds next n (.start xs)).found =
        before ++ (Search.rounds next n (.start xs)).frontier ∧
      run next before.length (start xs) =
        ⟨(Search.rounds next n (.start xs)).found, before.length⟩ := by
  induction n with
  | zero =>
    refine ⟨[], rfl, ?_⟩
    simp [run, start, Search.rounds, Search.start, ListSet.addEach_snd]
  | succ n ih =>
    obtain ⟨before, hfound, hrun⟩ := ih
    refine ⟨(Search.rounds next n (.start xs)).found, by rw [Search.rounds_succ]; rfl, ?_⟩
    have hlen : (Search.rounds next n (.start xs)).found.length =
        before.length + (Search.rounds next n (.start xs)).frontier.length := by
      rw [← List.length_append, ← hfound]
    rw [Search.rounds_succ, ← run_frontier before hfound, hlen, run_add, hrun]

/-- A search that is over and a worklist that has been read find the same, in the same order. -/
theorem run_start {xs : List α} {n : Nat}
    (hover : (Search.rounds next n (.start xs)).frontier = []) :
    run next (Search.rounds next n (.start xs)).found.length (start xs) =
      ⟨(Search.rounds next n (.start xs)).found,
        (Search.rounds next n (.start xs)).found.length⟩ := by
  obtain ⟨before, hfound, hrun⟩ := exists_run_start next xs n
  obtain rfl : before = (Search.rounds next n (.start xs)).found := by
    rw [hfound, hover, List.append_nil]
  exact hrun

end Worklist

/-! ## Reachable states -/

namespace System

theorem mem_reachableStates_iff_leadsIn {S : System} {s : State} :
    s ∈ S.reachableStates ↔ ∃ n, Search.LeadsIn S.successors S.initial n s := by
  rw [mem_reachableStates, Reachable, Search.exists_leadsIn_iff]

theorem mem_reachableStates_iff_isLeast {S : System} {s : State} :
    s ∈ S.reachableStates ↔ IsLeast {n | Search.LeadsIn S.successors S.initial n s}
      (Search.distance S.successors S.initial s) := by
  rw [mem_reachableStates_iff_leadsIn]
  constructor
  · rintro ⟨n, h⟩
    exact h.isLeast_distance
  · intro h
    exact ⟨_, h.1⟩

theorem run_worklist_eq (S : System) (n : Nat) :
    Worklist.run S.successors (S.reachableStates.length + n) (.start S.initial) =
      ⟨S.reachableStates, S.reachableStates.length⟩ := by
  have hread : Worklist.run S.successors S.reachableStates.length (.start S.initial) =
      ⟨S.reachableStates, S.reachableStates.length⟩ := Worklist.run_start S.frontier_forwardSearch
  rw [Worklist.run_add, hread]
  exact Worklist.run_of_read_all (Nat.le_refl _) n

/-- **Reachable states are listed breadth-first.** Each state that some number of steps leads to is
listed once, the initial states come first as they are listed, and no state comes before one that is
nearer. Reading the list from the front while it grows finds the same list, and is over when all of
it has been read. -/
theorem reachableStates_breadthFirst (S : System) :
    S.reachableStates.Nodup ∧
    (∀ s, s ∈ S.reachableStates ↔ ∃ n, Search.LeadsIn S.successors S.initial n s) ∧
    S.initial.eraseDups <+: S.reachableStates ∧
    (∀ s, s ∈ S.reachableStates ↔ IsLeast {n | Search.LeadsIn S.successors S.initial n s}
      (Search.distance S.successors S.initial s)) ∧
    S.reachableStates.Pairwise (fun s t =>
      Search.distance S.successors S.initial s ≤ Search.distance S.successors S.initial t) ∧
    ∀ n, Worklist.run S.successors (S.reachableStates.length + n) (.start S.initial) =
      ⟨S.reachableStates, S.reachableStates.length⟩ :=
  ⟨nodup_reachableStates S, fun _ => mem_reachableStates_iff_leadsIn,
    Search.prefix_found_rounds _ _ _, fun _ => mem_reachableStates_iff_isLeast,
    Search.pairwise_distance_found_rounds _ _ _, run_worklist_eq S⟩

/-- States that are not declared are listed too: the initial state `9`, then what is two steps away
from the initial states. -/
example :
    let S : System :=
      .ofEntries (State.ofNames ["1", "2"]) [⟨"a"⟩]
        [(.named "2", [(⟨"a"⟩, State.ofNames ["1", "7"])]),
          (.named "9", [(⟨"a"⟩, State.ofNames ["2", "9"])])]
        (State.ofNames ["9", "1", "9"]) [] []
    S.reachableStates = State.ofNames ["9", "1", "2", "7"] := by
  decide

end System
end TransitionSystems
