import Mathlib.Data.List.Chain
import TransitionSystems.Trace

/-!
The endless words that lassos spell. What stands at a place of the word is found by counting places
modulo the length of the cycle, and unrolling a lasso lists just the first places
(`unroll_eq_take`). Neighbours in the word are related everywhere if and only if they are within the
stem, within the cycle, where the cycle begins and where it begins again
(`linked_iff_forall_isChain_unroll`).
-/
namespace TransitionSystems.Lasso

variable {α β : Type}

/-- What stands at place `i` of the stem followed by the cycle for ever. -/
def at? (l : Lasso (List α)) (i : Nat) : Option α :=
  if i < l.stem.length then l.stem[i]? else l.cycle[(i - l.stem.length) % l.cycle.length]?

/-- The first `n` places of the word. If the cycle is empty, the word ends with the stem. -/
def take (l : Lasso (List α)) (n : Nat) : List α := (List.range n).filterMap l.at?

/-! ## Unrolling -/

theorem at?_cons_succ (x : α) (xs cycle : List α) (i : Nat) :
    at? ⟨x :: xs, cycle⟩ (i + 1) = at? ⟨xs, cycle⟩ i := by
  simp [at?]

/-- Past its first place, the cycle is a stem that leads into another round. -/
theorem at?_round_succ (x : α) (xs : List α) (i : Nat) :
    at? ⟨[], x :: xs⟩ (i + 1) = at? ⟨xs, x :: xs⟩ i := by
  simp only [at?, List.length_nil, Nat.not_lt_zero, if_false, Nat.sub_zero, List.length_cons]
  split
  · rename_i hi
    rw [Nat.mod_eq_of_lt (by omega), List.getElem?_cons_succ]
  · rename_i hi
    have hround : i + 1 = i - xs.length + (xs.length + 1) := by omega
    rw [hround, Nat.add_mod_right]

theorem take_succ (x : α) {l m : Lasso (List α)} (hfirst : l.at? 0 = some x)
    (hrest : ∀ i, l.at? (i + 1) = m.at? i) (n : Nat) : l.take (n + 1) = x :: m.take n := by
  rw [take, List.range_succ_eq_map, List.filterMap_cons, hfirst, List.filterMap_map]
  simp only [Function.comp_def, Nat.succ_eq_add_one, hrest, take]

theorem spin_eq_take (cycle : List α) (n : Nat) (xs : List α) :
    spin cycle n xs = take ⟨xs, cycle⟩ n := by
  fun_induction spin cycle n xs with
  | case1 => rfl
  | case2 n x xs ih => rw [take_succ x (by simp [at?]) (at?_cons_succ x xs cycle), ih]
  | case3 n hnil => simp [take, at?, hnil]
  | case4 n x xs hcons ih =>
    subst hcons
    rw [take_succ x (by simp [at?]) (at?_round_succ x xs), ih]

theorem unroll_eq_take (l : Lasso (List α)) (n : Nat) : l.unroll n = l.take n :=
  spin_eq_take l.cycle n l.stem

/-- As far as a lasso is unrolled, each place of the list is that place of the word. -/
theorem getElem?_spin (cycle : List α) (n : Nat) (xs : List α) (i : Nat) :
    (spin cycle n xs)[i]? = if i < n then at? ⟨xs, cycle⟩ i else none := by
  fun_induction spin cycle n xs generalizing i with
  | case1 => simp
  | case2 n x xs ih =>
    cases i with
    | zero => simp [at?]
    | succ i => simp [ih, at?_cons_succ]
  | case3 n hnil => simp [at?, hnil]
  | case4 n x xs hcons ih =>
    subst hcons
    cases i with
    | zero => simp [at?]
    | succ i => simp [ih, at?_round_succ]

theorem getElem?_unroll (l : Lasso (List α)) (n i : Nat) :
    (l.unroll n)[i]? = if i < n then l.at? i else none :=
  getElem?_spin l.cycle n l.stem i

theorem unroll_succ (l : Lasso (List α)) (n : Nat) :
    l.unroll (n + 1) = l.unroll n ++ (l.at? n).toList := by
  rw [unroll_eq_take, unroll_eq_take, take, take, List.range_succ, List.filterMap_append]
  cases h : l.at? n <;> simp [h]

theorem spin_map (f : α → β) (cycle : List α) (n : Nat) (xs : List α) :
    spin (cycle.map f) n (xs.map f) = (spin cycle n xs).map f := by
  fun_induction spin cycle n xs with
  | case1 => simp [spin]
  | case2 n x xs ih => simp [spin, ih]
  | case3 n hnil => simp [spin, hnil]
  | case4 n x xs hcons ih =>
    subst hcons
    simpa [spin] using ih

theorem unroll_map (f : α → β) (l : Lasso (List α)) (n : Nat) :
    (l.map (List.map f)).unroll n = (l.unroll n).map f :=
  spin_map f l.cycle n l.stem

theorem spin_zip {cycle : List α} {cycle' : List β} (hcycle : cycle.length = cycle'.length)
    (n : Nat) (xs : List α) (ys : List β) (hlen : xs.length = ys.length) :
    spin (cycle.zip cycle') n (xs.zip ys) = (spin cycle n xs).zip (spin cycle' n ys) := by
  induction n generalizing xs ys with
  | zero => rfl
  | succ n ih =>
    rcases xs with _ | ⟨x, xs⟩
    · obtain rfl : ys = [] := by simpa using hlen.symm
      rcases cycle with _ | ⟨x, xs⟩
      · obtain rfl : cycle' = [] := by simpa using hcycle.symm
        rfl
      · obtain ⟨y, ys, rfl⟩ : ∃ y ys, cycle' = y :: ys :=
          List.exists_cons_of_length_eq_add_one hcycle.symm
        simpa [spin] using ih xs ys (by simpa using hcycle)
    · obtain ⟨y, ys, rfl⟩ : ∃ y ys', ys = y :: ys' :=
        List.exists_cons_of_length_eq_add_one hlen.symm
      simp [spin, ih xs ys (by simpa using hlen)]

theorem length_spin {cycle : List α} (hcycle : cycle ≠ []) (n : Nat) (xs : List α) :
    (spin cycle n xs).length = n := by
  fun_induction spin cycle n xs with
  | case1 => rfl
  | case2 n x xs ih => rw [List.length_cons, ih]
  | case3 n hnil => exact absurd hnil hcycle
  | case4 n x xs hcons ih => rw [List.length_cons, ← hcons, ih]

theorem length_unroll {l : Lasso (List α)} (hcycle : l.cycle ≠ []) (n : Nat) :
    (l.unroll n).length = n :=
  length_spin hcycle n l.stem

/-- The first place is that of the stem, or of the cycle if there is no stem. -/
theorem head?_unroll_succ (l : Lasso (List α)) (n : Nat) :
    (l.unroll (n + 1)).head? = l.lap.head? := by
  obtain ⟨stem, cycle⟩ := l
  match stem, cycle with
  | x :: xs, _ => simp [unroll, spin, lap]
  | [], [] => rfl
  | [], x :: xs => simp [unroll, spin, lap]

/-! ## Chains -/

variable {R : α → α → Prop}

/-- Neighbours are related within either part, and where either part leads into the cycle. -/
structure Linked (R : α → α → Prop) (l : Lasso (List α)) : Prop where
  stem : l.stem.IsChain R
  cycle : l.cycle.IsChain R
  join : ∀ x ∈ l.stem.getLast?, ∀ y ∈ l.cycle.head?, R x y
  loop : ∀ x ∈ l.cycle.getLast?, ∀ y ∈ l.cycle.head?, R x y

theorem linked_cons_iff {stem ys : List α} {y : α} :
    Linked R ⟨stem, y :: ys⟩ ↔ stem.IsChain R ∧ (y :: ys).IsChain R ∧
      (∀ x ∈ stem.getLast?, R x y) ∧ ∀ x ∈ (y :: ys).getLast?, R x y := by
  constructor
  · rintro ⟨hstem, hcycle, hjoin, hloop⟩
    exact ⟨hstem, hcycle, fun x hx => hjoin x hx y rfl, fun x hx => hloop x hx y rfl⟩
  · rintro ⟨hstem, hcycle, hjoin, hloop⟩
    refine ⟨hstem, hcycle, ?_, ?_⟩
    · rintro x hx _ ⟨⟩
      exact hjoin x hx
    · rintro x hx _ ⟨⟩
      exact hloop x hx

theorem head?_spin_nil {cycle : List α} {n : Nat} {y : α} (h : y ∈ (spin cycle n []).head?) :
    y ∈ cycle.head? := by
  match n, cycle with
  | 0, _ => simp [spin] at h
  | n + 1, [] => simp [spin] at h
  | n + 1, x :: xs => simpa [spin] using h

/-- Round after round, a cycle that closes is a chain. -/
theorem isChain_spin_nil {cycle : List α} (hcycle : cycle.IsChain R)
    (hloop : ∀ x ∈ cycle.getLast?, ∀ y ∈ cycle.head?, R x y) (n : Nat) :
    (spin cycle n []).IsChain R := by
  -- A whole round goes by at a time, since the word starts anew after it.
  induction n using Nat.strong_induction_on with
  | _ n ih =>
    cases cycle with
    | nil =>
      cases n with
      | zero => exact .nil
      | succ n => exact .nil
    | cons x xs =>
      rcases Nat.lt_or_ge n (x :: xs).length with hn | hn
      · have hpart : spin (x :: xs) n [] = (x :: xs).take n := by
          cases n with
          | zero => rfl
          | succ n =>
            have hn' : n ≤ xs.length := by simp only [List.length_cons] at hn; omega
            simp [spin, spin_of_le _ _ _ hn']
        rw [hpart]
        exact hcycle.take n
      · obtain ⟨m, rfl⟩ := Nat.exists_eq_add_of_le hn
        rw [spin_round]
        have hm : m < (x :: xs).length + m := by simp only [List.length_cons]; omega
        exact hcycle.append (ih m hm) fun y hy z hz => hloop y hy z (head?_spin_nil hz)

theorem Linked.isChain_unroll {l : Lasso (List α)} (h : l.Linked R) (n : Nat) :
    (l.unroll n).IsChain R := by
  rcases Nat.le_total n l.stem.length with hn | hn
  · rw [unroll_of_le l n hn]
    exact h.stem.take n
  · obtain ⟨m, rfl⟩ := Nat.exists_eq_add_of_le hn
    rw [unroll, spin_append]
    exact h.stem.append (isChain_spin_nil h.cycle h.loop m) fun x hx y hy =>
      h.join x hx y (head?_spin_nil hy)

theorem unroll_lap (l : Lasso (List α)) : l.unroll l.lap.length = l.lap := by
  obtain ⟨stem, cycle⟩ := l
  rw [lap, List.length_append, unroll, spin_append]
  cases cycle with
  | nil => rfl
  | cons x xs =>
    have hround := spin_round x xs 0
    rw [Nat.add_zero] at hround
    rw [hround]
    simp [spin]

/-- The stem, a round of the cycle and the beginning of the next one. -/
theorem unroll_lap_succ {l : Lasso (List α)} (hcycle : l.cycle ≠ []) :
    l.unroll (l.stem.length + (l.cycle.length + 1)) = l.stem ++ (l.cycle ++ l.cycle.take 1) := by
  obtain ⟨stem, cycle⟩ := l
  cases cycle with
  | nil => exact absurd rfl hcycle
  | cons x xs =>
    rw [unroll, spin_append, spin_round]
    rfl

/-- One lap and the first place of the next show whether a lasso is linked. -/
theorem linked_of_isChain_unroll {l : Lasso (List α)} (hcycle : l.cycle ≠ [])
    (h : (l.unroll (l.stem.length + (l.cycle.length + 1))).IsChain R) : l.Linked R := by
  rw [unroll_lap_succ hcycle, List.isChain_append, List.isChain_append] at h
  obtain ⟨hstem, ⟨hround, _, hloop⟩, hjoin⟩ := h
  refine ⟨hstem, hround, ?_, ?_⟩
  · intro x hx y hy
    exact hjoin x hx y (by simp [List.head?_append, Option.mem_def.mp hy])
  · intro x hx y hy
    exact hloop x hx y (by simp [List.head?_take, Option.mem_def.mp hy])

theorem linked_iff_forall_isChain_unroll {l : Lasso (List α)} (hcycle : l.cycle ≠ []) :
    l.Linked R ↔ ∀ n, (l.unroll n).IsChain R :=
  ⟨fun h n => h.isChain_unroll n, fun h => linked_of_isChain_unroll hcycle (h _)⟩

end TransitionSystems.Lasso
