import Std.Data.ExtTreeMap

/-!
Tables whose entries are found by a row and a column. Rows and the entries of a row are kept in
ascending order of their keys, and two grids are equal if they hold the same entries. Written from a
list, a grid keeps the last entry given for a place: rows with one key are merged, entries are
replaced.
-/
namespace TransitionSystems

abbrev Table (κ α : Type) [Ord κ] := Std.ExtTreeMap κ α compare

abbrev Grid (κ ι α : Type) [Ord κ] [Ord ι] := Table κ (Table ι α)

namespace Table

theorem mem_iff_exists {κ α : Type} [Ord κ] [Std.TransOrd κ] {T : Table κ α} {k : κ} :
    k ∈ T ↔ ∃ x, T[k]? = some x := by
  rw [Std.ExtTreeMap.mem_iff_isSome_getElem?, Option.isSome_iff_exists]

variable {κ α : Type} [Ord κ] [Std.TransOrd κ] [Std.LawfulEqOrd κ] [DecidableEq κ]
  {entries : List (κ × α)} {k : κ}

theorem mem_ofList : k ∈ Std.ExtTreeMap.ofList entries compare ↔ ∃ x, (k, x) ∈ entries := by
  simp [Std.ExtTreeMap.mem_ofList]

theorem getD_ofList_of_not_mem (h : ∀ x, (k, x) ∉ entries) (fallback : α) :
    (Std.ExtTreeMap.ofList entries compare).getD k fallback = fallback :=
  Std.ExtTreeMap.getD_eq_fallback fun hk => by
    obtain ⟨x, hx⟩ := mem_ofList.1 hk
    exact h x hx

/-- If equal keys come with equal values, each key finds its own. -/
theorem getD_ofList_of_mem {x : α} (hx : (k, x) ∈ entries) (h : ∀ y, (k, y) ∈ entries → y = x)
    (fallback : α) : (Std.ExtTreeMap.ofList entries compare).getD k fallback = x := by
  rw [Std.ExtTreeMap.getD_eq_getD_getElem?, Std.ExtTreeMap.ofList_eq_insertMany_empty,
    Std.ExtTreeMap.getElem?_insertMany_list, List.findSomeRev?_eq_findSome?_reverse]
  cases hfound : entries.reverse.findSome?
      (fun (a, b) => if compare a k = .eq then some b else none) with
  | none =>
    have := List.findSome?_eq_none_iff.1 hfound (k, x) (List.mem_reverse.2 hx)
    simp at this
  | some y =>
    obtain ⟨⟨k', y'⟩, hy, he⟩ := List.exists_of_findSome?_eq_some hfound
    dsimp only at he
    split at he
    · rename_i heq
      cases he
      rw [Std.LawfulEqCmp.compare_eq_iff_eq] at heq
      exact h y (heq ▸ List.mem_reverse.1 hy)
    · cases he

end Table

namespace Grid

variable {κ ι α β : Type}

/-- The places of the listed rows with their contents, in the order of the list. -/
def places (rows : List (κ × List (ι × α))) : List (κ × ι × α) :=
  rows.flatMap fun row => row.2.map (row.1, ·)

/-- Rows are searched one after the other, each from its first column. -/
theorem findSome?_places (rows : List (κ × List (ι × α))) (f : κ → ι × α → Option β) :
    (places rows).findSome? (fun place => f place.1 place.2) =
      rows.findSome? fun row => row.2.findSome? (f row.1) := by
  induction rows with
  | nil => rfl
  | cons row rows ih =>
    have hrow : (row.2.map (row.1, ·)).findSome? (fun place => f place.1 place.2) =
        row.2.findSome? (f row.1) := List.findSome?_map
    rw [places, List.flatMap_cons, List.findSome?_append, hrow, List.findSome?_cons, ← ih]
    cases row.2.findSome? (f row.1) with
    | none => rfl
    | some b => rfl

/-- The rows in which row `k` has the list `f b i` in column `i`, for each key `(k, b)`. Empty lists
are left out, and so are rows without entries. -/
def cellRows (keys : List (κ × β)) (columns : List ι) (f : β → ι → List α) :
    List (κ × List (ι × List α)) :=
  keys.filterMap fun key =>
    let cells := columns.filterMap fun i =>
      if (f key.2 i).isEmpty then none else some (i, f key.2 i)
    if cells.isEmpty then none else some (key.1, cells)

theorem mem_places_cellRows {keys : List (κ × β)} {columns : List ι} {f : β → ι → List α} {k : κ}
    {i : ι} {xs : List α} :
    (k, i, xs) ∈ places (cellRows keys columns f) ↔
      i ∈ columns ∧ xs ≠ [] ∧ ∃ b, (k, b) ∈ keys ∧ f b i = xs := by
  simp only [places, cellRows, List.mem_flatMap, List.mem_filterMap, List.mem_map]
  constructor
  · rintro ⟨_, ⟨⟨k', b⟩, hb, hrow⟩, ⟨i', xs'⟩, hcell, hplace⟩
    split at hrow
    · cases hrow
    · cases hrow
      cases hplace
      obtain ⟨j, hj, hcell⟩ := List.mem_filterMap.1 hcell
      split at hcell
      · cases hcell
      · rename_i hne
        cases hcell
        exact ⟨hj, by simpa using hne, b, hb, rfl⟩
  · rintro ⟨hi, hne, b, hb, rfl⟩
    have hcell : (i, f b i) ∈ columns.filterMap fun i =>
        if (f b i).isEmpty then none else some (i, f b i) :=
      List.mem_filterMap.2 ⟨i, hi, by simp [hne]⟩
    refine ⟨_, ⟨(k, b), hb, if_neg ?_⟩, (i, f b i), hcell, rfl⟩
    rw [List.isEmpty_iff]
    exact List.ne_nil_of_mem hcell

variable [Ord κ] [Std.TransOrd κ] [Ord ι] [Std.TransOrd ι]

def at? (g : Grid κ ι α) (k : κ) (i : ι) : Option α := g[k]?.bind (·[i]?)

/-- Writes the entries of one row, each over what its place held before. -/
def write (g : Grid κ ι α) (row : κ × List (ι × α)) : Grid κ ι α :=
  g.insert row.1 ((g.getD row.1 ∅).insertMany row.2)

def ofRows (rows : List (κ × List (ι × α))) : Grid κ ι α := rows.foldl write ∅

/-- All rows, the empty ones included. -/
def rows (g : Grid κ ι α) : List (κ × List (ι × α)) := g.toList.map fun r => (r.1, r.2.toList)

def ofCells (keys : List (κ × β)) (columns : List ι) (f : β → ι → List α) : Grid κ ι (List α) :=
  ofRows (cellRows keys columns f)

/-- Places are listed by ascending rows, and those of one row by ascending columns. -/
theorem ordered_places_rows (g : Grid κ ι α) :
    (places g.rows).Pairwise fun p q =>
      compare p.1 q.1 = .lt ∨ p.1 = q.1 ∧ compare p.2.1 q.2.1 = .lt := by
  rw [places, rows, List.pairwise_flatMap, List.pairwise_map]
  constructor
  · intro row hrow
    obtain ⟨r, _, rfl⟩ := List.mem_map.1 hrow
    rw [List.pairwise_map]
    exact Std.ExtTreeMap.ordered_keys_toList.imp fun hlt => .inr ⟨rfl, hlt⟩
  · refine Std.ExtTreeMap.ordered_keys_toList.imp ?_
    intro r r' hlt x hx y hy
    obtain ⟨_, _, rfl⟩ := List.mem_map.1 hx
    obtain ⟨_, _, rfl⟩ := List.mem_map.1 hy
    exact .inl hlt

/-- Of two places, only one can be listed before the other. -/
theorem place_lt_asymm (p q : κ × ι × α)
    (hpq : compare p.1 q.1 = .lt ∨ p.1 = q.1 ∧ compare p.2.1 q.2.1 = .lt) :
    ¬(compare q.1 p.1 = .lt ∨ q.1 = p.1 ∧ compare q.2.1 p.2.1 = .lt) := by
  have hirrefl (k : κ) : compare k k ≠ .lt := by simp
  rintro (hrow | ⟨hrow, hcolumn⟩)
  · rcases hpq with hrow' | ⟨hrow', _⟩
    · exact Std.OrientedCmp.not_lt_of_lt hrow hrow'
    · exact hirrefl _ (hrow' ▸ hrow)
  · rcases hpq with hrow' | ⟨_, hcolumn'⟩
    · exact hirrefl _ (hrow ▸ hrow')
    · exact Std.OrientedCmp.not_lt_of_lt hcolumn hcolumn'

/-- No place is listed twice. -/
theorem pairwise_places_rows (g : Grid κ ι α) :
    (places g.rows).Pairwise fun p q => ¬(p.1 = q.1 ∧ p.2.1 = q.2.1) := by
  refine (ordered_places_rows g).imp ?_
  intro p q hlt hsame
  have hrow : compare q.1 q.1 = .eq := Std.ReflCmp.compare_self
  have hcolumn : compare q.2.1 q.2.1 = .eq := Std.ReflCmp.compare_self
  rw [hsame.1, hsame.2, hrow, hcolumn] at hlt
  simp at hlt

section
variable [Std.LawfulEqOrd κ]

theorem mem_ofRows {rows : List (κ × List (ι × α))} {k : κ} :
    k ∈ (ofRows rows : Grid κ ι α) ↔ ∃ row ∈ rows, row.1 = k := by
  have general (g : Grid κ ι α) :
      k ∈ rows.foldl write g ↔ (∃ row ∈ rows, row.1 = k) ∨ k ∈ g := by
    induction rows generalizing g with
    | nil => simp
    | cons row rows ih =>
      rw [List.foldl_cons, ih, write, Std.ExtTreeMap.mem_insert, Std.LawfulEqCmp.compare_eq_iff_eq]
      simp only [List.mem_cons, exists_eq_or_imp, or_assoc, or_left_comm]
  simp [ofRows, general]

theorem of_mem_ofCells {keys : List (κ × β)} {columns : List ι} {f : β → ι → List α} {k : κ}
    (h : k ∈ ofCells keys columns f) : ∃ b, (k, b) ∈ keys := by
  obtain ⟨row, hrow, rfl⟩ := mem_ofRows.1 h
  obtain ⟨⟨k', b⟩, hb, hkept⟩ := List.mem_filterMap.1 hrow
  dsimp only at hkept
  split at hkept
  · cases hkept
  · cases hkept
    exact ⟨b, hb⟩

variable [Std.LawfulEqOrd ι]

/-- The rows of a grid list what it holds. -/
theorem mem_places_rows {g : Grid κ ι α} {k : κ} {i : ι} {x : α} :
    (k, i, x) ∈ places g.rows ↔ g.at? k i = some x := by
  simp only [places, rows, List.mem_flatMap, List.mem_map, at?, Option.bind_eq_some_iff]
  constructor
  · rintro ⟨_, ⟨⟨k', row⟩, hrow, rfl⟩, ⟨i', x'⟩, hentry, hplace⟩
    cases hplace
    exact ⟨row, Std.ExtTreeMap.mem_toList_iff_getElem?_eq_some.1 hrow,
      Std.ExtTreeMap.mem_toList_iff_getElem?_eq_some.1 hentry⟩
  · rintro ⟨row, hrow, hentry⟩
    exact ⟨_, ⟨(k, row), Std.ExtTreeMap.mem_toList_iff_getElem?_eq_some.2 hrow, rfl⟩, (i, x),
      Std.ExtTreeMap.mem_toList_iff_getElem?_eq_some.2 hentry, rfl⟩

end

section
variable [DecidableEq κ] [DecidableEq ι] [Std.LawfulEqOrd κ] [Std.LawfulEqOrd ι]

/-- The content of a place, provided that it is the place in row `k` and column `i`. -/
def contentAt? (k : κ) (i : ι) (place : κ × ι × α) : Option α :=
  if place.1 = k ∧ place.2.1 = i then some place.2.2 else none

theorem at?_write (g : Grid κ ι α) (row : κ × List (ι × α)) (k : κ) (i : ι) :
    (g.write row).at? k i =
      ((places [row]).reverse.findSome? (contentAt? k i)).or (g.at? k i) := by
  by_cases hk : row.1 = k
  · subst hk
    cases hg : g[row.1]? <;>
      simp [at?, write, places, contentAt?, Std.ExtTreeMap.getElem?_insertMany_list,
        Std.ExtTreeMap.getD_eq_getD_getElem?, hg, ← List.map_reverse, List.findSome?_map,
        Function.comp_def]
  · have none_found : (row.2.reverse.findSome? fun _ => (none : Option α)) = none :=
      List.findSome?_eq_none_iff.2 fun _ _ => rfl
    simp [at?, write, places, contentAt?, hk, Std.ExtTreeMap.getElem?_insert, ← List.map_reverse,
      List.findSome?_map, Function.comp_def, none_found]

/-- What a place holds is the last entry given for it. -/
theorem at?_ofRows (rows : List (κ × List (ι × α))) (k : κ) (i : ι) :
    (ofRows rows : Grid κ ι α).at? k i =
      (places rows).reverse.findSome? (contentAt? k i) := by
  have general (g : Grid κ ι α) : (rows.foldl write g).at? k i =
      ((places rows).reverse.findSome? (contentAt? k i)).or (g.at? k i) := by
    induction rows generalizing g with
    | nil => simp [places]
    | cons row rows ih =>
      have hp : places (row :: rows) = places [row] ++ places rows := by simp [places]
      rw [List.foldl_cons, ih, at?_write, hp, List.reverse_append, List.findSome?_append,
        Option.or_assoc]
  rw [ofRows, general]
  simp [at?]

/-- What a place holds was written there for some key. -/
theorem of_at?_ofCells {keys : List (κ × β)} {columns : List ι} {f : β → ι → List α} {k : κ} {i : ι}
    {xs : List α} (h : (ofCells keys columns f).at? k i = some xs) :
    i ∈ columns ∧ xs ≠ [] ∧ ∃ b, (k, b) ∈ keys ∧ f b i = xs := by
  rw [ofCells, at?_ofRows] at h
  obtain ⟨⟨k', i', xs'⟩, hplace, he⟩ := List.exists_of_findSome?_eq_some h
  unfold contentAt? at he
  split at he
  · rename_i heq
    obtain ⟨rfl, rfl⟩ := heq
    cases he
    exact mem_places_cellRows.1 (List.mem_reverse.1 hplace)
  · cases he

theorem at?_ofCells_of_not_mem {keys : List (κ × β)} {columns : List ι} {f : β → ι → List α} {k : κ}
    (h : ∀ b, (k, b) ∉ keys) (i : ι) : (ofCells keys columns f).at? k i = none := by
  rw [ofCells, at?_ofRows, List.findSome?_eq_none_iff]
  rintro ⟨k', i', xs⟩ hplace
  obtain ⟨_, _, b, hb, _⟩ := mem_places_cellRows.1 (List.mem_reverse.1 hplace)
  refine if_neg ?_
  rintro ⟨rfl, _⟩
  exact h b hb

/-- If equal keys come with equal lists, each key finds its own. -/
theorem at?_ofCells_of_mem {keys : List (κ × β)} {columns : List ι} {f : β → ι → List α} {k : κ}
    {b : β} {i : ι} (hb : (k, b) ∈ keys) (h : ∀ b', (k, b') ∈ keys → f b' i = f b i) :
    ((ofCells keys columns f).at? k i).getD [] = if i ∈ columns then f b i else [] := by
  rw [ofCells, at?_ofRows]
  cases hfound : (places (cellRows keys columns f)).reverse.findSome? (contentAt? k i) with
  | some xs =>
    obtain ⟨⟨k', i', xs'⟩, hplace, he⟩ := List.exists_of_findSome?_eq_some hfound
    obtain ⟨hi, _, b', hb', hf⟩ := mem_places_cellRows.1 (List.mem_reverse.1 hplace)
    unfold contentAt? at he
    split at he
    · rename_i heq
      obtain ⟨rfl, rfl⟩ := heq
      cases he
      simp [← hf, h b' hb', hi]
    · cases he
  | none =>
    by_cases hi : i ∈ columns
    · by_cases hne : f b i = []
      · simp [hne]
      · have := List.findSome?_eq_none_iff.1 hfound (k, i, f b i)
          (List.mem_reverse.2 (mem_places_cellRows.2 ⟨hi, hne, b, hb, rfl⟩))
        simp [contentAt?] at this
    · simp [hi]

end
end Grid
end TransitionSystems
