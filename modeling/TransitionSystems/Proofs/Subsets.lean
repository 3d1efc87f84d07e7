import Mathlib.Data.Nat.ModEq
import Mathlib.Logic.ExistsUnique
import TransitionSystems.ListSet
import TransitionSystems.Subsets

/-!
The subsets of a list are its sublists. Each sublist is selected by a number below `2 ^ n`, where
`n` is the length of the list: the number has a one-bit where an element is kept
(`exists_select_of_sublist`). All these numbers are gone through (`mem_subsets_iff_exists_mask`),
and each place of the listing belongs to one of them (`getElem?_subsets`). In a list without repeats
no two numbers select the same set, so that each subset is listed once (`subsets_listed_once`).
-/
namespace TransitionSystems

variable {α : Type} {xs ys : List α}

theorem length_subsets_eq_two_pow (xs : List α) : (subsets xs).length = 2 ^ xs.length := by
  rw [length_subsets, Nat.one_shiftLeft]

/-- The empty subset, which comes last, is the one of the number zero. -/
theorem mem_subsets_iff_exists_mask :
    ys ∈ subsets xs ↔ ∃ mask < 2 ^ xs.length, select mask xs = ys := by
  simp only [subsets, List.mem_append, List.mem_map, List.mem_range'_1, List.mem_singleton,
    Nat.one_shiftLeft]
  have hpos := Nat.two_pow_pos xs.length
  constructor
  · rintro (⟨mask, hmask, rfl⟩ | rfl)
    · exact ⟨mask, by omega, rfl⟩
    · exact ⟨0, hpos, select_zero xs⟩
  · rintro ⟨mask, hmask, rfl⟩
    cases mask with
    | zero => exact .inr (select_zero xs)
    | succ mask => exact .inl ⟨mask + 1, by omega, rfl⟩

theorem exists_select_of_sublist (h : ys.Sublist xs) :
    ∃ mask < 2 ^ xs.length, select mask xs = ys := by
  induction h with
  | slnil => exact ⟨0, Nat.two_pow_pos 0, rfl⟩
  | @cons ys xs x _ ih =>
    obtain ⟨mask, hmask, rfl⟩ := ih
    refine ⟨2 * mask, ?_, ?_⟩
    · rw [List.length_cons, Nat.pow_succ]
      omega
    · have hbit : 2 * mask % 2 ≠ 1 := by omega
      have hrest : 2 * mask / 2 = mask := by omega
      rw [select, if_neg hbit, hrest]
  | @cons_cons ys xs x _ ih =>
    obtain ⟨mask, hmask, rfl⟩ := ih
    refine ⟨2 * mask + 1, ?_, ?_⟩
    · rw [List.length_cons, Nat.pow_succ]
      omega
    · have hbit : (2 * mask + 1) % 2 = 1 := by omega
      have hrest : (2 * mask + 1) / 2 = mask := by omega
      rw [select, if_pos hbit, hrest]

theorem mem_subsets_iff_sublist : ys ∈ subsets xs ↔ ys.Sublist xs := by
  rw [mem_subsets_iff_exists_mask]
  constructor
  · rintro ⟨mask, _, rfl⟩
    exact select_sublist mask xs
  · exact exists_select_of_sublist

theorem exists_mem_subsets_isSame [DecidableEq α] (h : ∀ y ∈ ys, y ∈ xs) :
    ∃ l ∈ subsets xs, ListSet.isSame l ys = true := by
  refine ⟨xs.filter (· ∈ ys), mem_subsets_iff_sublist.mpr List.filter_sublist,
    ListSet.isSame_iff.mpr fun y => ?_⟩
  rw [List.mem_filter, decide_eq_true_eq]
  exact ⟨fun hy => hy.2, fun hy => ⟨h y hy, hy⟩⟩

/-! ## Places and bits -/

/-- The elements at the places that are kept, in order. -/
def atPlaces (kept : Nat → Bool) (xs : List α) : List α :=
  (xs.zipIdx.filter fun place => kept place.2).map Prod.fst

theorem mem_atPlaces_iff {kept : Nat → Bool} {x : α} :
    x ∈ atPlaces kept xs ↔ ∃ i, xs[i]? = some x ∧ kept i = true := by
  simp only [atPlaces, List.mem_map, List.mem_filter, Prod.exists, List.mem_zipIdx_iff_getElem?,
    exists_and_right, exists_eq_right]

theorem atPlaces_congr {p q : Nat → Bool} (h : ∀ i < xs.length, p i = q i) :
    atPlaces p xs = atPlaces q xs := by
  refine congrArg (List.map Prod.fst) (List.filter_congr ?_)
  rintro ⟨x, i⟩ hx
  obtain ⟨hi, _⟩ := List.getElem?_eq_some_iff.mp (List.mem_zipIdx_iff_getElem?.mp hx)
  exact h i hi

theorem atPlaces_cons (kept : Nat → Bool) (x : α) (xs : List α) :
    atPlaces kept (x :: xs) =
      if kept 0 = true then x :: atPlaces (fun i => kept (i + 1)) xs
      else atPlaces (fun i => kept (i + 1)) xs := by
  have htail : ((xs.zipIdx 1).filter fun place => kept place.2).map Prod.fst =
      atPlaces (fun i => kept (i + 1)) xs := by
    rw [List.zipIdx_succ, List.filter_map, List.map_map]
    rfl
  rw [atPlaces, List.zipIdx_cons, List.filter_cons, ← htail]
  cases kept 0 with
  | true => rfl
  | false => rfl

theorem select_eq_atPlaces (mask : Nat) (xs : List α) :
    select mask xs = atPlaces mask.testBit xs := by
  induction xs generalizing mask with
  | nil => rfl
  | cons x xs ih =>
    simp only [select, atPlaces_cons, Nat.testBit_zero, decide_eq_true_eq, ← Nat.testBit_div_two,
      ih]

/-- Whether a word has a one-bit in place `i`: the bit is shifted to the right end and cut off. -/
def oneAt (w : UInt64) (i : Nat) : Bool := w >>> UInt64.ofNat i &&& 1 == 1

/-- A shift by less than the width of a word is not reduced. -/
theorem toNat_ofNat_mod_width {n : Nat} (hn : n < 64) : (UInt64.ofNat n).toNat % 64 = n := by
  rw [UInt64.toNat_ofNat']
  omega

theorem oneAt_eq_testBit {w : UInt64} {i : Nat} (hi : i < 64) :
    oneAt w i = w.toNat.testBit i := by
  rw [oneAt, Bool.eq_iff_iff, beq_iff_eq, ← UInt64.toNat_inj, UInt64.toNat_and,
    UInt64.toNat_shiftRight, toNat_ofNat_mod_width hi, UInt64.toNat_one, Nat.and_one_is_mod,
    Nat.testBit_eq_decide_div_mod_eq, decide_eq_true_eq, Nat.shiftRight_eq_div_pow]

theorem lt_one_shiftLeft_iff {w : UInt64} {n : Nat} (hn : n < 64) :
    w < 1 <<< UInt64.ofNat n ↔ w.toNat < 2 ^ n := by
  have hfits : 2 ^ n < 2 ^ 64 := Nat.pow_lt_pow_right (by decide) hn
  rw [UInt64.lt_iff_toNat_lt, UInt64.toNat_shiftLeft, toNat_ofNat_mod_width hn, UInt64.toNat_one,
    Nat.one_shiftLeft, Nat.mod_eq_of_lt hfits]

/-! ## The place of each subset -/

/-- Each place has the subset of the next number, and the last place that of the number zero. -/
theorem getElem?_subsets {k : Nat} (hk : k < 2 ^ xs.length) :
    (subsets xs)[k]? = some (select ((k + 1) % 2 ^ xs.length) xs) := by
  have hlength : ((List.range' 1 (1 <<< xs.length - 1)).map (select · xs)).length =
      2 ^ xs.length - 1 := by
    rw [List.length_map, List.length_range', Nat.one_shiftLeft]
  rcases Nat.lt_or_ge k (2 ^ xs.length - 1) with hlt | hge
  · have hmod : (k + 1) % 2 ^ xs.length = 1 + k := by
      rw [Nat.mod_eq_of_lt (by omega), Nat.add_comm]
    rw [subsets, List.getElem?_append_left (hlength ▸ hlt), List.getElem?_map,
      List.getElem?_range' (by rwa [Nat.one_shiftLeft]), hmod, Nat.one_mul, Option.map_some]
  · have hlast : k + 1 = 2 ^ xs.length := by omega
    have hplace : k - (2 ^ xs.length - 1) = 0 := by omega
    rw [subsets, List.getElem?_append_right (hlength ▸ hge), hlength, hplace, hlast, Nat.mod_self,
      select_zero]
    rfl

theorem lt_of_getElem?_subsets {k : Nat} (h : (subsets xs)[k]? = some ys) :
    k < 2 ^ xs.length := by
  obtain ⟨hk, _⟩ := List.getElem?_eq_some_iff.mp h
  rwa [length_subsets_eq_two_pow] at hk

theorem getElem_mem_select_iff (h : xs.Nodup) {mask i : Nat} (hi : i < xs.length) :
    xs[i] ∈ select mask xs ↔ mask.testBit i = true := by
  rw [select_eq_atPlaces, mem_atPlaces_iff]
  constructor
  · rintro ⟨j, hj, hbit⟩
    have hij : i = j := (List.getElem?_inj hi h).mp ((List.getElem?_eq_getElem hi).trans hj.symm)
    rwa [hij]
  · intro hbit
    exact ⟨i, List.getElem?_eq_getElem hi, hbit⟩

/-- The bits of a number can be read off the set that it selects, if no element comes twice. -/
theorem eq_of_select_same (h : xs.Nodup) {m n : Nat} (hm : m < 2 ^ xs.length)
    (hn : n < 2 ^ xs.length) (hsame : ∀ x, x ∈ select m xs ↔ x ∈ select n xs) : m = n := by
  refine Nat.eq_of_testBit_eq fun i => ?_
  rcases Nat.lt_or_ge i xs.length with hi | hi
  · rw [Bool.eq_iff_iff, ← getElem_mem_select_iff h hi, ← getElem_mem_select_iff h hi]
    exact hsame xs[i]
  · have hle : 2 ^ xs.length ≤ 2 ^ i := Nat.pow_le_pow_right (by decide) hi
    rw [Nat.testBit_lt_two_pow (Nat.lt_of_lt_of_le hm hle),
      Nat.testBit_lt_two_pow (Nat.lt_of_lt_of_le hn hle)]

/-- In a list without repeats, subsets in different places have different elements. -/
theorem subsets_place_unique (h : xs.Nodup) {j k : Nat} {l m : List α}
    (hj : (subsets xs)[j]? = some l) (hk : (subsets xs)[k]? = some m)
    (hsame : ∀ x, x ∈ l ↔ x ∈ m) : j = k := by
  have hjlt := lt_of_getElem?_subsets hj
  have hklt := lt_of_getElem?_subsets hk
  have hpos := Nat.two_pow_pos xs.length
  rw [getElem?_subsets hjlt, Option.some.injEq] at hj
  rw [getElem?_subsets hklt, Option.some.injEq] at hk
  subst hj hk
  have hnumbers : j + 1 ≡ k + 1 [MOD 2 ^ xs.length] :=
    eq_of_select_same h (Nat.mod_lt _ hpos) (Nat.mod_lt _ hpos) hsame
  exact (hnumbers.add_right_cancel' 1).eq_of_lt_of_lt hjlt hklt

theorem existsUnique_place [DecidableEq α] (h : xs.Nodup) (hys : ∀ y ∈ ys, y ∈ xs) :
    ∃! k : Nat, ∃ l, (subsets xs)[k]? = some l ∧ ListSet.isSame l ys = true := by
  obtain ⟨l, hl, hsame⟩ := exists_mem_subsets_isSame hys
  obtain ⟨k, hk⟩ := List.mem_iff_getElem?.mp hl
  refine ⟨k, ⟨l, hk, hsame⟩, ?_⟩
  rintro j ⟨m, hj, hm⟩
  exact subsets_place_unique h hj hk fun x =>
    (ListSet.isSame_iff.mp hm x).trans (ListSet.isSame_iff.mp hsame x).symm

theorem getElem?_subsets_pred {m : Nat} (hpos : 1 ≤ m) (hm : m < 2 ^ xs.length) :
    (subsets xs)[m - 1]? = some (atPlaces m.testBit xs) := by
  rw [getElem?_subsets (Nat.lt_of_le_of_lt (Nat.sub_le m 1) hm), Nat.sub_add_cancel hpos,
    Nat.mod_eq_of_lt hm, select_eq_atPlaces]

/-- **Each subset is listed once.** There are `2 ^ n` subsets of a list of `n` elements. That of the
number `m` has the elements at the places of the one-bits of `m`, in order, and is listed in place
`m - 1`; a word of 64 bits, which has one for each element, may stand for the number. The empty
subset is listed last. What is contained in the list has the same elements as one of the subsets,
and as no other if the list has no repeats. A list of 64 elements or more is refused. -/
theorem subsets_listed_once [DecidableEq α] (xs : List α) :
    (xs.length < 64 → ∃ ls, subsets? xs = .ok ls ∧ ls.length = 2 ^ xs.length ∧
      (∀ m, 1 ≤ m → m < 2 ^ xs.length → ls[m - 1]? = some (atPlaces m.testBit xs)) ∧
      (∀ w : UInt64, 1 ≤ w → w < 1 <<< UInt64.ofNat xs.length →
        ls[w.toNat - 1]? = some (atPlaces (oneAt w) xs)) ∧
      ls.getLast? = some [] ∧
      ∀ ys, (∀ y ∈ ys, y ∈ xs) →
        (∃ l ∈ ls, ListSet.isSame l ys = true) ∧
        (xs.Nodup → ∃! k : Nat, ∃ l, ls[k]? = some l ∧ ListSet.isSame l ys = true)) ∧
    (64 ≤ xs.length → subsets? xs = .error (.tooManySubsets xs.length)) := by
  constructor
  · intro hsmall
    refine ⟨subsets xs, if_pos hsmall, length_subsets_eq_two_pow xs,
      fun m => getElem?_subsets_pred, ?_, List.getLast?_concat, ?_⟩
    · intro w hpos hw
      have hbits : atPlaces (oneAt w) xs = atPlaces w.toNat.testBit xs :=
        atPlaces_congr fun i hi => oneAt_eq_testBit (Nat.lt_trans hi hsmall)
      rw [hbits]
      exact getElem?_subsets_pred (UInt64.le_iff_toNat_le.mp hpos)
        ((lt_one_shiftLeft_iff hsmall).mp hw)
    · intro ys hys
      exact ⟨exists_mem_subsets_isSame hys, fun h => existsUnique_place h hys⟩
  · intro hlarge
    exact if_neg (Nat.not_lt.mpr hlarge)

/-- Three names, and a long list with its highest bit set alone. -/
theorem subsets_listed_once_threeNames :
    (∃ ls, subsets? ["a", "b", "c"] = .ok ls ∧ ls[4]? = some ["a", "c"] ∧ ls.getLast? = some [] ∧
      ∃! k : Nat, ∃ l, ls[k]? = some l ∧ ListSet.isSame l ["c", "a", "c"] = true) ∧
    (∃ ls, subsets? (List.range 58) = .ok ls ∧ ls.length = 2 ^ 58 ∧
      ls[((1 : UInt64) <<< 57).toNat - 1]? = some [57]) ∧
    subsets? (List.range 64) = .error (.tooManySubsets 64) := by
  refine ⟨?_, ?_, (subsets_listed_once (List.range 64)).2 (by decide)⟩
  · obtain ⟨ls, hls, _, hnumber, _, hlast, hsame⟩ :=
      (subsets_listed_once ["a", "b", "c"]).1 (by decide)
    exact ⟨ls, hls, hnumber 5 (by decide) (by decide), hlast,
      (hsame ["c", "a", "c"] (by decide)).2 (by decide)⟩
  · obtain ⟨ls, hls, hlength, _, hword, _⟩ := (subsets_listed_once (List.range 58)).1 (by decide)
    exact ⟨ls, hls, hlength, hword ((1 : UInt64) <<< 57) (by decide) (by decide)⟩

end TransitionSystems
