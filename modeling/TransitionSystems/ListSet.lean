/-!
Lists read as sets. The tests ignore order and repeats. Every result lists its elements in the order
in which they first appear, and `List.eraseDups` is the one way in which repeats are dropped.
-/
namespace TransitionSystems.ListSet

variable {α β : Type}

section
variable [BEq α]

/-- After its head, a list without repeats goes on with the elements other than the head. -/
theorem induction_others {P : List α → Prop} (nil : P [])
    (cons : ∀ x xs, P (xs.filter fun y => !y == x) → P (x :: xs)) : ∀ xs, P xs
  | [] => nil
  | x :: xs => cons x xs (induction_others nil cons _)
termination_by xs => xs.length
decreasing_by
  have := List.length_filter_le (fun y => !y == x) xs
  simp only [List.length_cons]
  omega

theorem eraseDups_map [LawfulBEq α] [BEq β] [LawfulBEq β] {f : α → β}
    (hf : ∀ x y, f x = f y → x = y) (xs : List α) : (xs.map f).eraseDups = xs.eraseDups.map f := by
  induction xs using induction_others with
  | nil => rfl
  | cons x xs ih =>
    have hsame : (fun y => !f y == f x) = fun y => !y == x := by
      funext y
      rw [Bool.eq_iff_iff]
      simp only [Bool.not_eq_true', beq_eq_false_iff_ne]
      exact not_congr ⟨hf y x, congrArg f⟩
    rw [List.map_cons, List.eraseDups_cons, List.eraseDups_cons, List.map_cons, ← ih,
      List.filter_map, Function.comp_def, hsame]

end

section
variable [DecidableEq α]

/-- Every element of `xs` is in `ys`. -/
def isSubset (xs ys : List α) : Bool := xs.all (· ∈ ys)

/-- `xs` and `ys` have the same elements. -/
def isSame (xs ys : List α) : Bool := isSubset xs ys && isSubset ys xs

/-- Appends `x` unless `xs` has it already. -/
def add (xs : List α) (x : α) : List α := if x ∈ xs then xs else xs ++ [x]

/-- Adds the elements of a list to `xs` one after the other, noting of each whether it was new. -/
def addEach (xs : List α) : List α → List Bool × List α
  | [] => ([], xs)
  | y :: ys =>
    let rest := addEach (add xs y) ys
    (decide (y ∉ xs) :: rest.1, rest.2)

/-- The elements of all the lists, each once. -/
def union (xss : List (List α)) : List α := xss.flatten.eraseDups

/-- The elements of `xs` that are in `ys`, as often and in the order that `xs` has them. -/
def common (xs ys : List α) : List α := xs.filter (· ∈ ys)

theorem isSubset_iff {xs ys : List α} : isSubset xs ys = true ↔ ∀ x ∈ xs, x ∈ ys := by
  simp [isSubset]

theorem isSame_iff {xs ys : List α} : isSame xs ys = true ↔ ∀ x, x ∈ xs ↔ x ∈ ys := by
  simp only [isSame, Bool.and_eq_true, isSubset_iff]
  exact ⟨fun h x => ⟨h.1 x, h.2 x⟩, fun h => ⟨fun x => (h x).1, fun x => (h x).2⟩⟩

theorem mem_add {xs : List α} {x y : α} : y ∈ add xs x ↔ y ∈ xs ∨ y = x := by
  unfold add
  split
  · exact ⟨.inl, fun h => h.elim id (· ▸ ‹_›)⟩
  · simp

theorem mem_union {xss : List (List α)} {x : α} : x ∈ union xss ↔ ∃ xs ∈ xss, x ∈ xs := by
  simp [union, List.mem_eraseDups]

theorem nodup_eraseDups (xs : List α) : xs.eraseDups.Nodup := by
  induction xs using induction_others with
  | nil => simp
  | cons x xs ih =>
    rw [List.eraseDups_cons, List.nodup_cons]
    exact ⟨by simp [List.mem_eraseDups], ih⟩

theorem eraseDups_of_nodup {xs : List α} (h : xs.Nodup) : xs.eraseDups = xs := by
  induction xs with
  | nil => rfl
  | cons x xs ih =>
    obtain ⟨hx, hxs⟩ := List.nodup_cons.1 h
    have hkept : xs.filter (fun y => !y == x) = xs := by
      rw [List.filter_eq_self]
      intro y hy
      have hne : y ≠ x := fun e => hx (e ▸ hy)
      simpa using hne
    rw [List.eraseDups_cons, hkept, ih hxs]

theorem eraseDups_filter (p : α → Bool) (xs : List α) :
    (xs.filter p).eraseDups = xs.eraseDups.filter p := by
  induction xs using induction_others with
  | nil => rfl
  | cons x xs ih =>
    rw [List.eraseDups_cons, List.filter_cons, List.filter_cons, ← ih, List.filter_filter]
    split
    · rw [List.eraseDups_cons, List.filter_filter]
      simp only [Bool.and_comm]
    · rename_i hx
      congr 2
      funext y
      by_cases hy : y = x
      · simp [hy, hx]
      · simp [hy]

/-- Repeats within a part are dropped with the others. -/
theorem eraseDups_eraseDups_append (xs ys : List α) :
    (xs.eraseDups ++ ys).eraseDups = (xs ++ ys).eraseDups := by
  rw [List.eraseDups_append, List.eraseDups_append, eraseDups_of_nodup (nodup_eraseDups xs)]
  simp only [List.removeAll, List.elem_eq_mem, List.mem_eraseDups]

theorem eraseDups_append_eraseDups (xs ys : List α) :
    (xs ++ ys.eraseDups).eraseDups = (xs ++ ys).eraseDups := by
  rw [List.eraseDups_append, List.eraseDups_append, List.removeAll, List.removeAll,
    eraseDups_filter, eraseDups_filter, eraseDups_of_nodup (nodup_eraseDups ys)]

theorem union_assoc (xs ys zs : List α) :
    union [union [xs, ys], zs] = union [xs, union [ys, zs]] := by
  simp only [union, List.flatten_cons, List.flatten_nil, List.append_nil]
  rw [eraseDups_eraseDups_append, eraseDups_append_eraseDups, List.append_assoc]

theorem nodup_union (xss : List (List α)) : (union xss).Nodup := nodup_eraseDups _

/-- Adding one by one appends the new elements, each once. -/
theorem addEach_snd (xs ys : List α) :
    (addEach xs ys).2 = xs ++ (ys.filter (· ∉ xs)).eraseDups := by
  induction ys generalizing xs with
  | nil => simp [addEach]
  | cons y ys ih =>
    simp only [addEach, ih, add]
    by_cases hy : y ∈ xs
    · simp [hy]
    · simp only [hy, if_false, List.filter_cons, decide_not, decide_false, Bool.not_false, if_true,
        List.eraseDups_cons, List.filter_filter, List.append_assoc, List.singleton_append]
      congr 4
      funext z
      by_cases hz : z = y <;> simp [hz]

theorem mem_addEach_snd {xs ys : List α} {x : α} : x ∈ (addEach xs ys).2 ↔ x ∈ xs ∨ x ∈ ys := by
  induction ys generalizing xs with
  | nil => simp [addEach]
  | cons y ys ih => simp only [addEach, ih, mem_add, List.mem_cons, or_assoc]

theorem nodup_addEach_snd {xs : List α} (h : xs.Nodup) (ys : List α) :
    (addEach xs ys).2.Nodup := by
  rw [addEach_snd, List.nodup_append]
  refine ⟨h, nodup_eraseDups _, ?_⟩
  rintro x hx _ hy rfl
  simp [List.mem_eraseDups, hx] at hy

theorem addEach_append_snd (xs ys zs : List α) :
    (addEach xs (ys ++ zs)).2 = (addEach (addEach xs ys).2 zs).2 := by
  induction ys generalizing xs with
  | nil => rfl
  | cons y ys ih => exact ih (add xs y)

end

theorem length_le_one_iff {xs : List α} (h : xs.Nodup) :
    xs.length ≤ 1 ↔ ∀ x ∈ xs, ∀ y ∈ xs, x = y := by
  rcases xs with _ | ⟨x, _ | ⟨y, xs⟩⟩
  · simp
  · simp
  · have hne : x ≠ y := fun e => (List.nodup_cons.1 h).1 (by simp [e])
    constructor
    · intro hlen
      simp at hlen
    · intro hall
      exact absurd (hall x (by simp) y (by simp)) hne

/-- All pairs of an element of `xs` and one of `ys`; the first component varies slowest. -/
def pairs (xs : List α) (ys : List β) : List (α × β) :=
  xs.flatMap fun x => ys.map fun y => (x, y)

theorem mem_pairs {xs : List α} {ys : List β} {x : α} {y : β} :
    (x, y) ∈ pairs xs ys ↔ x ∈ xs ∧ y ∈ ys := by
  simp [pairs]

theorem mem_map_pairs {γ : Type} {f : α → β → γ} {xs : List α} {ys : List β} {z : γ} :
    z ∈ (pairs xs ys).map (fun (x, y) => f x y) ↔ ∃ x ∈ xs, ∃ y ∈ ys, z = f x y := by
  simp only [List.mem_map, Prod.exists, mem_pairs]
  constructor
  · intro ⟨x, y, ⟨hx, hy⟩, hz⟩
    exact ⟨x, hx, y, hy, hz.symm⟩
  · intro ⟨x, hx, y, hy, hz⟩
    exact ⟨x, y, ⟨hx, hy⟩, hz.symm⟩

theorem pairs_map {γ δ : Type} (f : α → γ) (g : β → δ) (xs : List α) (ys : List β) :
    pairs (xs.map f) (ys.map g) = (pairs xs ys).map fun (x, y) => (f x, g y) := by
  simp [pairs, List.flatMap_map, List.map_flatMap, Function.comp_def]

theorem pairs_assoc {γ : Type} (xs : List α) (ys : List β) (zs : List γ) :
    pairs (pairs xs ys) zs = (pairs xs (pairs ys zs)).map fun (x, y, z) => ((x, y), z) := by
  simp only [pairs, List.flatMap_map, List.map_flatMap, List.map_map, List.flatMap_assoc,
    Function.comp_def]

theorem pairs_filter (p : α → Bool) (q : β → Bool) (xs : List α) (ys : List β) :
    pairs (xs.filter p) (ys.filter q) = (pairs xs ys).filter fun (x, y) => p x && q y := by
  induction xs with
  | nil => rfl
  | cons x xs ih =>
    have hrow : (ys.map fun y => (x, y)).filter (fun (x, y) => p x && q y) =
        (ys.filter fun y => p x && q y).map fun y => (x, y) := List.filter_map
    simp only [pairs, List.flatMap_cons, List.filter_append, hrow] at ih ⊢
    rw [← ih]
    cases hx : p x with
    | true => simp [hx]
    | false => simp [hx]

/-- A search that is told the places of the elements but does not select by them. -/
theorem findSome?_zipIdx_eq_none_iff {xs : List α} {k : Nat} {f : α × Nat → Option β}
    {p : α → Prop} (hf : ∀ x i, f (x, i) = none ↔ p x) :
    (xs.zipIdx k).findSome? f = none ↔ ∀ x ∈ xs, p x := by
  rw [List.findSome?_eq_none_iff]
  induction xs generalizing k with
  | nil => simp
  | cons x xs ih =>
    rw [List.zipIdx_cons, List.forall_mem_cons, List.forall_mem_cons, hf, ih]

end TransitionSystems.ListSet
