import TransitionSystems.Fault

/-!
All subsets of a list. A subset is named by a number whose one-bits are the positions of its
elements, the lowest bit being the position of the head. The subsets are listed in the order of
these numbers, except that the empty one comes last.
-/
namespace TransitionSystems

variable {α : Type}

/-- The elements of the list at the positions of the one-bits of `mask`, in order. -/
def select : Nat → List α → List α
  | _, [] => []
  | mask, x :: xs => if mask % 2 = 1 then x :: select (mask / 2) xs else select (mask / 2) xs

def subsets (xs : List α) : List (List α) :=
  (List.range' 1 (1 <<< xs.length - 1)).map (select · xs) ++ [[]]

/-- A list of this length or longer has too many subsets to list them. -/
def subsetLimit : Nat := 64

/-- All subsets, unless there are too many of them. Only the length of the list decides: memory is
taken to be sufficient, also where so many subsets could not be stored. -/
def subsets? (xs : List α) : Except Misuse (List (List α)) :=
  if xs.length < subsetLimit then .ok (subsets xs) else .error (.tooManySubsets xs.length)

theorem select_zero (xs : List α) : select 0 xs = [] := by
  induction xs with
  | nil => rfl
  | cons x xs ih => simp [select, ih]

theorem select_sublist (mask : Nat) (xs : List α) : (select mask xs).Sublist xs := by
  induction xs generalizing mask with
  | nil => exact .slnil
  | cons x xs ih =>
    unfold select
    split
    · exact (ih _).cons_cons x
    · exact (ih _).cons x

theorem length_subsets (xs : List α) : (subsets xs).length = 1 <<< xs.length := by
  have h : 0 < 1 <<< xs.length := by
    rw [Nat.one_shiftLeft]
    exact Nat.two_pow_pos _
  simp only [subsets, List.length_append, List.length_map, List.length_range',
    List.length_singleton]
  omega

end TransitionSystems
