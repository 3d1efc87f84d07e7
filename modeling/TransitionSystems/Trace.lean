import TransitionSystems.Alphabet

/-!
Lassos and traces. A lasso is a stem, and a cycle that follows it and repeats for ever; the parts
may be lists, or anything that lists are read off. A trace is made of the labels seen along a run,
in order, and that of an endless run is a lasso. The main statements say how an unrolled lasso
begins and how it goes on after each round of the cycle.
-/
namespace TransitionSystems

structure Lasso (α : Type) where
  stem : α
  cycle : α
deriving DecidableEq

namespace Lasso

variable {α β : Type}

def map (f : α → β) (l : Lasso α) : Lasso β := ⟨f l.stem, f l.cycle⟩

/-- The lasso that starts with the cycle and repeats the stem. -/
def swap (l : Lasso α) : Lasso α := ⟨l.cycle, l.stem⟩

/-- The stem and one round of the cycle. -/
def lap (l : Lasso (List α)) : List α := l.stem ++ l.cycle

/-- The first `n` elements of `xs` followed by endless repetitions of `cycle`. -/
def spin (cycle : List α) : Nat → List α → List α
  | 0, _ => []
  | n + 1, x :: xs => x :: spin cycle n xs
  | n + 1, [] =>
    match cycle with
    | [] => []
    | x :: xs => x :: spin cycle n xs

/-- The first `n` elements, or just the stem if it is shorter and the cycle is empty. -/
def unroll (l : Lasso (List α)) (n : Nat) : List α := spin l.cycle n l.stem

theorem spin_of_le (cycle : List α) (n : Nat) (xs : List α) (h : n ≤ xs.length) :
    spin cycle n xs = xs.take n := by
  induction n generalizing xs with
  | zero => simp [spin]
  | succ n ih =>
    cases xs with
    | nil => simp at h
    | cons x xs => simp [spin, ih xs (by simpa using h)]

theorem spin_append (cycle : List α) (n : Nat) (xs : List α) :
    spin cycle (xs.length + n) xs = xs ++ spin cycle n [] := by
  induction xs with
  | nil => simp
  | cons x xs ih =>
    rw [List.length_cons, Nat.add_right_comm]
    simp [spin, ih]

/-- An unrolled lasso goes on after one round of its cycle as it did before it. -/
theorem spin_round (x : α) (xs : List α) (n : Nat) :
    spin (x :: xs) ((x :: xs).length + n) [] = (x :: xs) ++ spin (x :: xs) n [] := by
  rw [List.length_cons, Nat.add_right_comm]
  simp [spin, spin_append]

theorem unroll_of_le (l : Lasso (List α)) (n : Nat) (h : n ≤ l.stem.length) :
    l.unroll n = l.stem.take n := spin_of_le _ _ _ h

end Lasso

/-! ## Traces -/

inductive Trace
  | finite (labels : List Label)
  | lasso (labels : Lasso (List Label))
deriving DecidableEq

namespace Trace

/-- The trace on which nothing is seen. -/
def empty : Trace := finite []

instance : Inhabited Trace := ⟨empty⟩

/-- Every label that the trace shows, the ones that repeat for ever in one round only. -/
def shown : Trace → List Label
  | finite ls => ls
  | lasso l => l.lap

/-- The proposition holds all along the trace. -/
def always (τ : Trace) (p : Proposition) : Bool := τ.shown.all (p ∈ ·)

/-- The first `n` labels, fewer if the trace ends before. -/
def unroll : Trace → Nat → List Label
  | finite ls, n => ls.take n
  | lasso l, n => l.unroll n

theorem always_iff {τ : Trace} {p : Proposition} : τ.always p = true ↔ ∀ l ∈ τ.shown, p ∈ l := by
  simp [always]

end Trace

end TransitionSystems
