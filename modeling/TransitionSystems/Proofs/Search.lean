import Mathlib.Data.List.Perm.Subperm
import Mathlib.Logic.Relation
import TransitionSystems.System.Reachability

/-!
What a breadth-first search finds.

* `Invariant.rounds`: after any number of rounds nothing is found twice, and whatever is found
  outside the frontier has all its neighbours found;
* `frontier_rounds_eq_nil`: if only elements of a list can be found, the search is over after as
  many rounds as the list is long;
* `mem_found_rounds_start`: from then on it has found what can be reached from its start;
* `any_or_meets_start`: a search for a goal tells whether one can be reached.
-/
namespace TransitionSystems.Search

variable {α : Type}

/-- Steps from element to neighbour, any number of them, lead from the first to the second. -/
abbrev Leads (next : α → List α) : α → α → Prop := Relation.ReflTransGen fun x y => y ∈ next x

structure Invariant (next : α → List α) (s : Search α) : Prop where
  nodup : s.found.Nodup
  frontier : ∀ x ∈ s.frontier, x ∈ s.found
  closed : ∀ x ∈ s.found, x ∉ s.frontier → ∀ y ∈ next x, y ∈ s.found

variable {next : α → List α}

/-- A search without a frontier cannot find anything more. -/
theorem Invariant.mem_found_of_leads {s : Search α} (h : Invariant next s)
    (hover : s.frontier = []) {x y : α} (hx : x ∈ s.found) (hxy : Leads next x y) :
    y ∈ s.found := by
  induction hxy with
  | refl => exact hx
  | tail _ hstep ih => exact h.closed _ ih (by simp [hover]) _ hstep

variable [DecidableEq α]

theorem invariant_start (next : α → List α) (xs : List α) : Invariant next (start xs) where
  nodup := ListSet.nodup_eraseDups xs
  frontier := fun _ hx => hx
  closed := fun _ hx hnot => absurd hx hnot

theorem Invariant.advance {s : Search α} (h : Invariant next s) :
    Invariant next (s.advance next) where
  nodup := nodup_advance h.nodup
  frontier := by
    intro x hx
    exact mem_found_advance.mpr (Or.inr (mem_frontier_advance.mp hx).1)
  closed := by
    intro x hx hnew y hy
    have hold : x ∈ s.found := by
      by_cases hs : x ∈ s.found
      · exact hs
      · rcases mem_found_advance.mp hx with hx | hx
        · exact hx
        · exact absurd (mem_frontier_advance.mpr ⟨hx, hs⟩) hnew
    by_cases hf : x ∈ s.frontier
    · exact mem_found_advance.mpr (Or.inr ⟨x, hf, hy⟩)
    · exact mem_found_advance.mpr (Or.inl (h.closed x hold hf y hy))

theorem rounds_succ (next : α → List α) (n : Nat) (s : Search α) :
    rounds next (n + 1) s = (rounds next n s).advance next := by
  induction n generalizing s with
  | zero => rfl
  | succ n ih => exact ih (s.advance next)

theorem Invariant.rounds {s : Search α} (h : Invariant next s) (n : Nat) :
    Invariant next (rounds next n s) := by
  induction n with
  | zero => exact h
  | succ n ih =>
    rw [rounds_succ]
    exact ih.advance

theorem mem_found_rounds_of_mem {s : Search α} {x : α} (hx : x ∈ s.found) (n : Nat) :
    x ∈ (rounds next n s).found := by
  induction n with
  | zero => exact hx
  | succ n ih =>
    rw [rounds_succ]
    exact mem_found_advance.mpr (Or.inl ih)

/-- What holds of all that is found, and of the neighbours of whatever it holds of, goes on to hold
of all that is found. -/
theorem forall_mem_found_rounds {P : α → Prop} {s : Search α} (h : Invariant next s)
    (hs : ∀ x ∈ s.found, P x) (hnext : ∀ x, P x → ∀ y ∈ next x, P y) (n : Nat) :
    ∀ x ∈ (rounds next n s).found, P x := by
  induction n with
  | zero => exact hs
  | succ n ih =>
    intro x hx
    rw [rounds_succ] at hx
    rcases mem_found_advance.mp hx with hx | ⟨y, hy, hx⟩
    · exact ih x hx
    · exact hnext y (ih y ((h.rounds n).frontier y hy)) x hx

/-- Each round that leaves a frontier has found something. -/
theorem lt_length_found_rounds {s : Search α} (h : Invariant next s) (n : Nat)
    (hne : (rounds next n s).frontier ≠ []) : n < (rounds next n s).found.length := by
  induction n with
  | zero =>
    obtain ⟨x, hx⟩ := List.exists_mem_of_ne_nil _ hne
    exact List.length_pos_of_mem (h.frontier x hx)
  | succ n ih =>
    rw [rounds_succ] at hne ⊢
    obtain ⟨x, hx⟩ := List.exists_mem_of_ne_nil _ hne
    obtain ⟨y, hy, _⟩ := (mem_frontier_advance.mp hx).1
    have hold := ih (List.ne_nil_of_mem hy)
    have hnew : 0 < ((rounds next n s).advance next).frontier.length := List.length_pos_of_mem hx
    simp only [Search.advance, List.length_append] at hnew ⊢
    omega

theorem frontier_rounds_eq_nil {s : Search α} {U : List α} {n : Nat} (h : Invariant next s)
    (hs : ∀ x ∈ s.found, x ∈ U) (hnext : ∀ x ∈ U, ∀ y ∈ next x, y ∈ U) (hn : U.length ≤ n) :
    (rounds next n s).frontier = [] := by
  by_contra hne
  have hlt := lt_length_found_rounds h n hne
  have hsub := forall_mem_found_rounds h hs hnext n
  have hle := ((h.rounds n).nodup.subperm hsub).length_le
  omega

section
variable {xs U : List α} {n : Nat}

theorem mem_found_rounds_start (hs : ∀ x ∈ xs, x ∈ U) (hnext : ∀ x ∈ U, ∀ y ∈ next x, y ∈ U)
    (hn : U.length ≤ n) {x : α} :
    x ∈ (rounds next n (start xs)).found ↔ ∃ y ∈ xs, Leads next y x := by
  have hinv := invariant_start next xs
  have hstart : ∀ y, y ∈ (start xs).found ↔ y ∈ xs := fun y => List.mem_eraseDups
  constructor
  · refine forall_mem_found_rounds hinv (P := fun x => ∃ y ∈ xs, Leads next y x) ?_ ?_ n x
    · intro y hy
      exact ⟨y, (hstart y).mp hy, .refl⟩
    · rintro y ⟨z, hz, hzy⟩ w hw
      exact ⟨z, hz, hzy.tail hw⟩
  · rintro ⟨y, hy, hyx⟩
    have hover : (rounds next n (start xs)).frontier = [] :=
      frontier_rounds_eq_nil hinv (fun z hz => hs z ((hstart z).mp hz)) hnext hn
    have hfound : y ∈ (rounds next n (start xs)).found :=
      mem_found_rounds_of_mem ((hstart y).mpr hy) n
    exact (hinv.rounds n).mem_found_of_leads hover hfound hyx

theorem any_found_advance (goal : α → Bool) (s : Search α) :
    (s.advance next).found.any goal = (s.found.any goal || (s.neighbours next).any goal) := by
  rw [Bool.eq_iff_iff]
  simp only [Bool.or_eq_true, List.any_eq_true, mem_found_advance, mem_neighbours]
  constructor
  · rintro ⟨x, hx | hx, hgoal⟩
    · exact Or.inl ⟨x, hx, hgoal⟩
    · exact Or.inr ⟨x, hx, hgoal⟩
  · rintro (⟨x, hx, hgoal⟩ | ⟨x, hx, hgoal⟩)
    · exact ⟨x, Or.inl hx, hgoal⟩
    · exact ⟨x, Or.inr hx, hgoal⟩

/-- Stopping at the first goal answers as if the search had gone on. -/
theorem any_or_meets (goal : α → Bool) (n : Nat) (s : Search α) :
    (s.found.any goal || meets next goal n s) = (rounds next n s).found.any goal := by
  induction n generalizing s with
  | zero => simp [meets, rounds]
  | succ n ih =>
    rw [meets, rounds, ← ih, any_found_advance, Bool.or_assoc]

theorem any_or_meets_start (goal : α → Bool) (hs : ∀ x ∈ xs, x ∈ U)
    (hnext : ∀ x ∈ U, ∀ y ∈ next x, y ∈ U) (hn : U.length ≤ n) :
    ((start xs).found.any goal || meets next goal n (start xs)) = true ↔
      ∃ x, goal x = true ∧ ∃ y ∈ xs, Leads next y x := by
  rw [any_or_meets, List.any_eq_true]
  simp only [mem_found_rounds_start hs hnext hn]
  exact ⟨fun ⟨x, hx, hgoal⟩ => ⟨x, hgoal, hx⟩, fun ⟨x, hgoal, hx⟩ => ⟨x, hx, hgoal⟩⟩

end
end TransitionSystems.Search
