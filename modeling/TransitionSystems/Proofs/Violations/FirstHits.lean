import TransitionSystems.Grid

/-!
First hits: the first element of a list that has a property. What `List.find?` and
`List.findSome?` return is the first hit (`find?_eq_some_iff_first`, `findSome?_eq_some_iff_first`),
and in an ordered list the first hit is the least one (`first_iff_least`). A table is searched by
ascending keys (`findSome?_toList_eq_some_iff`).
-/
namespace TransitionSystems

variable {α β : Type} {p : α → Prop} {xs : List α} {x y : α} {i : Nat}

/-- Place `i` of the list holds `x`, which has the property `p`; no place before it holds an element
that has it. -/
structure FirstAt (p : α → Prop) (xs : List α) (i : Nat) (x : α) : Prop where
  here : xs[i]? = some x
  holds : p x
  before : ∀ j < i, ∀ y, xs[j]? = some y → ¬p y

/-- `x` is the first element of the list that has the property `p`. -/
def First (p : α → Prop) (xs : List α) (x : α) : Prop := ∃ i, FirstAt p xs i x

theorem FirstAt.mem (h : FirstAt p xs i x) : x ∈ xs := List.mem_of_getElem? h.here

theorem firstAt_cons_zero_iff : FirstAt p (y :: xs) 0 x ↔ y = x ∧ p x := by
  constructor
  · intro h
    exact ⟨by simpa using h.here, h.holds⟩
  · rintro ⟨rfl, hy⟩
    exact ⟨rfl, hy, fun j hj => absurd hj (Nat.not_lt_zero j)⟩

theorem firstAt_cons_succ_iff : FirstAt p (y :: xs) (i + 1) x ↔ ¬p y ∧ FirstAt p xs i x := by
  constructor
  · intro h
    refine ⟨h.before 0 (Nat.succ_pos i) y rfl, by simpa using h.here, h.holds, ?_⟩
    intro j hj z hz
    exact h.before (j + 1) (Nat.succ_lt_succ hj) z (by simpa using hz)
  · rintro ⟨hy, h⟩
    refine ⟨by simpa using h.here, h.holds, ?_⟩
    rintro (_ | j) hj z hz
    · cases hz
      exact hy
    · exact h.before j (Nat.lt_of_succ_lt_succ hj) z (by simpa using hz)

theorem first_cons_iff : First p (y :: xs) x ↔ (y = x ∧ p x) ∨ (¬p y ∧ First p xs x) := by
  constructor
  · rintro ⟨_ | i, h⟩
    · exact .inl (firstAt_cons_zero_iff.mp h)
    · obtain ⟨hy, h⟩ := firstAt_cons_succ_iff.mp h
      exact .inr ⟨hy, i, h⟩
  · rintro (h | ⟨hy, i, h⟩)
    · exact ⟨0, firstAt_cons_zero_iff.mpr h⟩
    · exact ⟨i + 1, firstAt_cons_succ_iff.mpr ⟨hy, h⟩⟩

theorem firstAt_iff_append : FirstAt p xs i x ↔
    p x ∧ ∃ before after, xs = before ++ x :: after ∧ before.length = i ∧ ∀ y ∈ before, ¬p y := by
  constructor
  · intro h
    obtain ⟨hi, rfl⟩ := List.getElem?_eq_some_iff.mp h.here
    refine ⟨h.holds, xs.take i, xs.drop (i + 1), ?_, ?_, ?_⟩
    · rw [← List.drop_eq_getElem_cons hi, List.take_append_drop]
    · exact List.length_take_of_le (Nat.le_of_lt hi)
    · intro y hy
      obtain ⟨j, hj, rfl⟩ := List.mem_take_iff_getElem.mp hy
      exact h.before j (by omega) _ (List.getElem?_eq_getElem _)
  · rintro ⟨hx, before, after, rfl, rfl, hbefore⟩
    refine ⟨by simp, hx, ?_⟩
    intro j hj y hy
    rw [List.getElem?_append_left hj] at hy
    exact hbefore y (List.mem_of_getElem? hy)

theorem first_iff_append : First p xs x ↔
    p x ∧ ∃ before after, xs = before ++ x :: after ∧ ∀ y ∈ before, ¬p y := by
  constructor
  · rintro ⟨i, h⟩
    obtain ⟨hx, before, after, hsplit, _, hbefore⟩ := firstAt_iff_append.mp h
    exact ⟨hx, before, after, hsplit, hbefore⟩
  · rintro ⟨hx, before, after, hsplit, hbefore⟩
    exact ⟨before.length, firstAt_iff_append.mpr ⟨hx, before, after, hsplit, rfl, hbefore⟩⟩

/-! ## Searches -/

theorem find?_eq_some_iff_first {f : α → Bool} (hf : ∀ y, f y = true ↔ p y) :
    xs.find? f = some x ↔ First p xs x := by
  rw [List.find?_eq_some_iff_append, first_iff_append, hf]
  simp only [← hf, Bool.not_eq_true', Bool.not_eq_true]

theorem map_find?_eq_some_iff_first {f : α → Bool} (hf : ∀ y, f y = true ↔ p y) {g : α → β}
    {b : β} : (xs.find? f).map g = some b ↔ ∃ x, b = g x ∧ First p xs x := by
  simp only [Option.map_eq_some_iff, find?_eq_some_iff_first hf]
  constructor
  · rintro ⟨x, hx, rfl⟩
    exact ⟨x, rfl, hx⟩
  · rintro ⟨x, rfl, hx⟩
    exact ⟨x, hx, rfl⟩

/-- The first element that is not declared is reported as `g` says. -/
theorem map_find?_undeclared_eq_some_iff [DecidableEq α] {declared : List α} {g : α → β} {b : β} :
    (xs.find? (· ∉ declared)).map g = some b ↔ ∃ x, b = g x ∧ First (· ∉ declared) xs x :=
  map_find?_eq_some_iff_first fun _ => decide_eq_true_iff

theorem findIdx?_eq_some_iff_firstAt {f : α → Bool} (hf : ∀ y, f y = true ↔ p y) :
    xs.findIdx? f = some i ↔ ∃ x, FirstAt p xs i x := by
  rw [List.findIdx?_eq_some_iff_getElem]
  constructor
  · rintro ⟨hi, hhere, hbefore⟩
    refine ⟨xs[i], List.getElem?_eq_getElem hi, (hf _).mp hhere, ?_⟩
    intro j hj y hy
    obtain ⟨_, rfl⟩ := List.getElem?_eq_some_iff.mp hy
    exact fun hp => hbefore j hj ((hf _).mpr hp)
  · rintro ⟨x, h⟩
    obtain ⟨hi, rfl⟩ := List.getElem?_eq_some_iff.mp h.here
    refine ⟨hi, (hf _).mpr h.holds, ?_⟩
    intro j hj hp
    exact h.before j hj _ (List.getElem?_eq_getElem _) ((hf _).mp hp)

theorem findSome?_eq_some_iff_first {f : α → Option β} (hf : ∀ y, f y = none ↔ ¬p y) {b : β} :
    xs.findSome? f = some b ↔ ∃ x, First p xs x ∧ f x = some b := by
  simp only [List.findSome?_eq_some_iff, first_iff_append, hf]
  constructor
  · rintro ⟨before, x, after, hsplit, hx, hbefore⟩
    have hp : ¬¬p x := by
      rw [← hf, hx]
      exact Option.some_ne_none b
    exact ⟨x, ⟨Classical.not_not.mp hp, before, after, hsplit, hbefore⟩, hx⟩
  · rintro ⟨x, ⟨_, before, after, hsplit, hbefore⟩, hx⟩
    exact ⟨before, x, after, hsplit, hx, hbefore⟩

theorem firstAt_zipIdx_iff {k j : Nat} :
    FirstAt (fun entry => p entry.1) (xs.zipIdx k) i (x, j) ↔ j = k + i ∧ FirstAt p xs i x := by
  constructor
  · intro h
    have hhere := h.here
    simp only [List.getElem?_zipIdx, Option.map_eq_some_iff, Prod.mk.injEq] at hhere
    obtain ⟨y, hy, rfl, rfl⟩ := hhere
    refine ⟨rfl, hy, h.holds, ?_⟩
    intro m hm z hz
    exact h.before m hm (z, k + m) (by simp [hz])
  · rintro ⟨rfl, h⟩
    refine ⟨by simp [h.here], h.holds, ?_⟩
    rintro m hm ⟨z, n⟩ hz
    simp only [List.getElem?_zipIdx, Option.map_eq_some_iff, Prod.mk.injEq] at hz
    obtain ⟨_, hz, rfl, _⟩ := hz
    exact h.before m hm _ hz

/-- A search that is told the places, counted from `k`, but does not select by them. -/
theorem findSome?_zipIdx_eq_some_iff {k : Nat} {f : α × Nat → Option β}
    (hf : ∀ y j, f (y, j) = none ↔ ¬p y) {b : β} :
    (xs.zipIdx k).findSome? f = some b ↔ ∃ i x, FirstAt p xs i x ∧ f (x, k + i) = some b := by
  have hentry (entry : α × Nat) : f entry = none ↔ ¬p entry.1 := hf entry.1 entry.2
  rw [findSome?_eq_some_iff_first hentry]
  constructor
  · rintro ⟨⟨x, j⟩, ⟨i, h⟩, hb⟩
    obtain ⟨rfl, hfirst⟩ := firstAt_zipIdx_iff.mp h
    exact ⟨i, x, hfirst, hb⟩
  · rintro ⟨i, x, h, hb⟩
    exact ⟨(x, k + i), ⟨i, firstAt_zipIdx_iff.mpr ⟨rfl, h⟩⟩, hb⟩

/-- A search for the first element without the property `p`, which is reported with its place. -/
theorem findSome?_ite_zipIdx_eq_some_iff {k : Nat} [DecidablePred p] {f : Nat → α → β} {b : β} :
    ((xs.zipIdx k).findSome? fun entry => if p entry.1 then none else some (f entry.2 entry.1)) =
      some b ↔ ∃ i x, b = f (k + i) x ∧ FirstAt (¬p ·) xs i x := by
  rw [findSome?_zipIdx_eq_some_iff (p := fun x => ¬p x) (by simp)]
  constructor
  · rintro ⟨i, x, hfirst, hb⟩
    rw [if_neg hfirst.holds] at hb
    exact ⟨i, x, (Option.some.inj hb).symm, hfirst⟩
  · rintro ⟨i, x, rfl, hfirst⟩
    exact ⟨i, x, hfirst, if_neg hfirst.holds⟩

/-! ## Ordered lists -/

/-- In an ordered list, nothing that has the property is below the first element that has it. -/
theorem first_iff_least {r : α → α → Prop} (hasymm : ∀ a b, r a b → ¬r b a)
    (hordered : xs.Pairwise r) :
    First p xs x ↔ x ∈ xs ∧ p x ∧ ∀ y ∈ xs, r y x → ¬p y := by
  rw [first_iff_append]
  constructor
  · rintro ⟨hx, before, after, rfl, hbefore⟩
    obtain ⟨_, hafter, _⟩ := List.pairwise_append.mp hordered
    refine ⟨by simp, hx, ?_⟩
    intro y hy hyx
    rcases List.mem_append.mp hy with hy | hy
    · exact hbefore y hy
    · rcases List.mem_cons.mp hy with rfl | hy
      · exact absurd hyx (hasymm _ _ hyx)
      · exact absurd hyx (hasymm _ _ ((List.pairwise_cons.mp hafter).1 y hy))
  · rintro ⟨hmem, hx, hleast⟩
    obtain ⟨before, after, rfl⟩ := List.mem_iff_append.mp hmem
    obtain ⟨_, _, hbelow⟩ := List.pairwise_append.mp hordered
    refine ⟨hx, before, after, rfl, ?_⟩
    intro y hy
    exact hleast y (by simp [hy]) (hbelow y hy x (by simp))

/-! ## Tables -/

section

variable {κ : Type} [Ord κ] [Std.TransOrd κ] {q : κ → α → Prop} {T : Table κ α} {k : κ}

/-- Of the entries of a table that have the property `q`, the one of `k` comes first by ascending
keys. -/
structure FirstEntry (q : κ → α → Prop) (T : Table κ α) (k : κ) (x : α) : Prop where
  stored : T[k]? = some x
  holds : q k x
  least : ∀ k' x', T[k']? = some x' → compare k' k = .lt → ¬q k' x'

variable [Std.LawfulEqOrd κ]

theorem first_toList_iff :
    First (fun entry => q entry.1 entry.2) T.toList (k, x) ↔ FirstEntry q T k x := by
  rw [first_iff_least (fun _ _ => Std.OrientedCmp.not_lt_of_lt) Std.ExtTreeMap.ordered_keys_toList]
  simp only [Prod.forall, Std.ExtTreeMap.mem_toList_iff_getElem?_eq_some]
  constructor
  · rintro ⟨hstored, hholds, hleast⟩
    exact ⟨hstored, hholds, hleast⟩
  · rintro ⟨hstored, hholds, hleast⟩
    exact ⟨hstored, hholds, hleast⟩

/-- A search through the entries of a table ends at the first one that has the property. -/
theorem findSome?_toList_eq_some_iff {f : κ × α → Option β} (hf : ∀ k x, f (k, x) = none ↔ ¬q k x)
    {b : β} : T.toList.findSome? f = some b ↔ ∃ k x, FirstEntry q T k x ∧ f (k, x) = some b := by
  rw [findSome?_eq_some_iff_first (p := fun entry => q entry.1 entry.2) fun entry =>
    hf entry.1 entry.2]
  simp only [Prod.exists, first_toList_iff]

end

end TransitionSystems
