import TransitionSystems.Proofs.Violations.Systems
import TransitionSystems.RabinAutomaton

/-!
Deterministic Rabin automata: which of them are valid, what is reported of the others, and where the
runs of the valid ones go (`automaton_outcomes`). Of an automaton, the first use of something
undeclared is reported: its initial state; then its moves, row by row, where the source is looked at
before its letters and each letter before its successor; then the acceptance pairs. A run follows a
word up to the first letter without a move.
-/
namespace TransitionSystems.RabinAutomaton

/-- Whatever the automaton uses it declares. -/
structure Valid (A : RabinAutomaton) : Prop where
  initial : A.initial ∈ A.states
  source : ∀ s ∈ A.moves, s ∈ A.states
  symbol : ∀ s x t, A.next? s x = some t → x ∈ A.alphabet
  successor : ∀ s x t, A.next? s x = some t → t ∈ A.states
  finitelyOften : ∀ pair ∈ A.acceptance, ∀ s ∈ pair.finitelyOften, s ∈ A.states
  infinitelyOften : ∀ pair ∈ A.acceptance, ∀ s ∈ pair.infinitelyOften, s ∈ A.states

/-- A move by the letter `x` to `t` uses declared names only. -/
def MoveDeclared (A : RabinAutomaton) (x : Proposition) (t : State) : Prop :=
  x ∈ A.alphabet ∧ t ∈ A.states

/-- The source is declared, and its moves use declared names only. -/
def RowDeclared (A : RabinAutomaton) (s : State) (row : Table Proposition State) : Prop :=
  s ∈ A.states ∧ ∀ x t, row[x]? = some t → A.MoveDeclared x t

def PairDeclared (A : RabinAutomaton) (pair : AcceptancePair) : Prop :=
  (∀ s ∈ pair.finitelyOften, s ∈ A.states) ∧ ∀ s ∈ pair.infinitelyOften, s ∈ A.states

/-- The row of `s` is the first one, by ascending sources, that uses something undeclared. -/
abbrev FirstBadRow (A : RabinAutomaton) : State → Table Proposition State → Prop :=
  FirstEntry (fun s row => ¬A.RowDeclared s row) A.moves

/-- The move by `x` to `t` is the first one of its row, by ascending letters, that uses something
undeclared. -/
abbrev FirstBadMove (A : RabinAutomaton) (row : Table Proposition State) :
    Proposition → State → Prop :=
  FirstEntry (fun x t => ¬A.MoveDeclared x t) row

/-- What is wrong with the automaton first. Each kind of use is looked at only if those before it
are declared; a row is finished before the next source is looked at. -/
inductive FirstViolation (A : RabinAutomaton) : Violation → Prop
  | initial (hstate : A.initial ∉ A.states) : A.FirstViolation (.undeclaredInitial A.initial)
  | source {s : State} {row : Table Proposition State} (hinitial : A.initial ∈ A.states)
      (hrow : A.FirstBadRow s row) (hstate : s ∉ A.states) : A.FirstViolation (.undeclaredSource s)
  | symbol {s : State} {row : Table Proposition State} {x : Proposition} {t : State}
      (hinitial : A.initial ∈ A.states) (hrow : A.FirstBadRow s row) (hstate : s ∈ A.states)
      (hmove : A.FirstBadMove row x t) (hsymbol : x ∉ A.alphabet) :
      A.FirstViolation (.undeclaredSymbol s x)
  | successor {s : State} {row : Table Proposition State} {x : Proposition} {t : State}
      (hinitial : A.initial ∈ A.states) (hrow : A.FirstBadRow s row) (hstate : s ∈ A.states)
      (hmove : A.FirstBadMove row x t) (hsymbol : x ∈ A.alphabet) (htarget : t ∉ A.states) :
      A.FirstViolation (.undeclaredSuccessor s x t)
  | finitelyOften {i : Nat} {pair : AcceptancePair} {s : State} (hinitial : A.initial ∈ A.states)
      (hrows : ∀ t row, A.moves[t]? = some row → A.RowDeclared t row)
      (hpair : FirstAt (¬A.PairDeclared ·) A.acceptance i pair)
      (hstate : First (· ∉ A.states) pair.finitelyOften s) :
      A.FirstViolation (.undeclaredAccepting i .finitelyOften s)
  | infinitelyOften {i : Nat} {pair : AcceptancePair} {s : State} (hinitial : A.initial ∈ A.states)
      (hrows : ∀ t row, A.moves[t]? = some row → A.RowDeclared t row)
      (hpair : FirstAt (¬A.PairDeclared ·) A.acceptance i pair)
      (hfinitely : ∀ t ∈ pair.finitelyOften, t ∈ A.states)
      (hstate : First (· ∉ A.states) pair.infinitelyOften s) :
      A.FirstViolation (.undeclaredAccepting i .infinitelyOften s)

/-- The moves taken along a word from `s`, each a letter with the state it leads to, up to the first
letter without a move. -/
def run (A : RabinAutomaton) (s : State) : List Proposition → List (Proposition × State)
  | [] => []
  | x :: word =>
    match A.next? s x with
    | none => []
    | some t => (x, t) :: A.run t word

variable {A : RabinAutomaton} {v : Violation} {s t : State} {x : Proposition}

theorem initialViolation?_eq_none_iff : A.initialViolation? = none ↔ A.initial ∈ A.states := by
  unfold initialViolation?
  split <;> simp_all

theorem initialViolation?_eq_some_iff :
    A.initialViolation? = some v ↔ A.initial ∉ A.states ∧ v = .undeclaredInitial A.initial := by
  unfold initialViolation?
  split <;> simp_all [eq_comm]

/-! ## Moves -/

theorem next?_eq_some_iff :
    A.next? s x = some t ↔ ∃ row, A.moves[s]? = some row ∧ row[x]? = some t :=
  Option.bind_eq_some_iff

theorem entryViolation?_eq_none_iff :
    A.entryViolation? s (x, t) = none ↔ A.MoveDeclared x t := by
  unfold entryViolation? MoveDeclared
  split <;> simp_all

theorem entryViolation?_eq_some_iff : A.entryViolation? s (x, t) = some v ↔
    (x ∉ A.alphabet ∧ v = .undeclaredSymbol s x) ∨
      (x ∈ A.alphabet ∧ t ∉ A.states ∧ v = .undeclaredSuccessor s x t) := by
  unfold entryViolation?
  split <;> simp_all [eq_comm]

/-- The search through one row, which reports its source or the first move at fault. -/
def rowViolation? (A : RabinAutomaton) (s : State) (row : Table Proposition State) :
    Option Violation :=
  if s ∈ A.states then row.toList.findSome? (A.entryViolation? s) else some (.undeclaredSource s)

theorem moveViolation?_eq_findSome? :
    A.moveViolation? = A.moves.toList.findSome? fun entry => A.rowViolation? entry.1 entry.2 :=
  List.findSome?_map

theorem rowViolation?_eq_none_iff {row : Table Proposition State} :
    A.rowViolation? s row = none ↔ A.RowDeclared s row := by
  unfold rowViolation? RowDeclared
  by_cases hs : s ∈ A.states
  · simp only [hs, if_true, true_and, List.findSome?_eq_none_iff, Prod.forall,
      Std.ExtTreeMap.mem_toList_iff_getElem?_eq_some, entryViolation?_eq_none_iff]
  · simp only [hs, if_false, reduceCtorEq, false_and]

theorem rowViolation?_eq_some_iff {row : Table Proposition State} :
    A.rowViolation? s row = some v ↔ (s ∉ A.states ∧ v = .undeclaredSource s) ∨
      (s ∈ A.states ∧ ∃ x t, A.FirstBadMove row x t ∧ A.entryViolation? s (x, t) = some v) := by
  unfold rowViolation?
  by_cases hs : s ∈ A.states
  · have hmove (x : Proposition) (t : State) :
        A.entryViolation? s (x, t) = none ↔ ¬¬A.MoveDeclared x t := by
      rw [entryViolation?_eq_none_iff, Classical.not_not]
    simp only [hs, if_true, not_true, false_and, false_or, true_and,
      findSome?_toList_eq_some_iff hmove]
  · simp only [hs, if_false, Option.some.injEq, not_false_eq_true, true_and, false_and, or_false,
      eq_comm]

theorem moveViolation?_eq_none_iff :
    A.moveViolation? = none ↔ ∀ s row, A.moves[s]? = some row → A.RowDeclared s row := by
  simp only [moveViolation?_eq_findSome?, List.findSome?_eq_none_iff, Prod.forall,
    Std.ExtTreeMap.mem_toList_iff_getElem?_eq_some, rowViolation?_eq_none_iff]

theorem moveViolation?_eq_some_iff : A.moveViolation? = some v ↔
    ∃ s row, A.FirstBadRow s row ∧ A.rowViolation? s row = some v := by
  have hrow (s : State) (row : Table Proposition State) :
      A.rowViolation? s row = none ↔ ¬¬A.RowDeclared s row := by
    rw [rowViolation?_eq_none_iff, Classical.not_not]
  rw [moveViolation?_eq_findSome?, findSome?_toList_eq_some_iff hrow]

/-- The rows are declared exactly if the sources are, those of empty rows too, and so is whatever
the moves use. -/
theorem rowDeclared_iff : (∀ s row, A.moves[s]? = some row → A.RowDeclared s row) ↔
    (∀ s ∈ A.moves, s ∈ A.states) ∧ ∀ s x t, A.next? s x = some t → A.MoveDeclared x t := by
  simp only [next?_eq_some_iff]
  constructor
  · intro h
    constructor
    · intro s hs
      obtain ⟨row, hrow⟩ := Table.mem_iff_exists.mp hs
      exact (h s row hrow).1
    · rintro s x t ⟨row, hrow, ht⟩
      exact (h s row hrow).2 x t ht
  · rintro ⟨hsource, hmove⟩ s row hrow
    refine ⟨hsource s (Table.mem_iff_exists.mpr ⟨row, hrow⟩), ?_⟩
    intro x t ht
    exact hmove s x t ⟨row, hrow, ht⟩

/-! ## Acceptance pairs -/

/-- The search through one pair, its states to be visited finitely often first. -/
def pairViolation? (A : RabinAutomaton) (pair : AcceptancePair) (i : Nat) : Option Violation :=
  ((pair.finitelyOften.find? (· ∉ A.states)).map (.undeclaredAccepting i .finitelyOften)).or
    ((pair.infinitelyOften.find? (· ∉ A.states)).map (.undeclaredAccepting i .infinitelyOften))

theorem pairViolation?_eq_none_iff {pair : AcceptancePair} {i : Nat} :
    A.pairViolation? pair i = none ↔ A.PairDeclared pair := by
  simp [pairViolation?, PairDeclared]

theorem pairViolation?_eq_some_iff {pair : AcceptancePair} {i : Nat} :
    A.pairViolation? pair i = some v ↔
      (∃ s, v = .undeclaredAccepting i .finitelyOften s ∧
        First (· ∉ A.states) pair.finitelyOften s) ∨
      ((∀ s ∈ pair.finitelyOften, s ∈ A.states) ∧
        ∃ s, v = .undeclaredAccepting i .infinitelyOften s ∧
          First (· ∉ A.states) pair.infinitelyOften s) := by
  simp only [pairViolation?, Option.or_eq_some_iff, map_find?_undeclared_eq_some_iff,
    Option.map_eq_none_iff, List.find?_eq_none, decide_eq_true_eq, Classical.not_not]

theorem acceptanceViolation?_eq_findSome? : A.acceptanceViolation? =
    A.acceptance.zipIdx.findSome? fun entry => A.pairViolation? entry.1 entry.2 := rfl

theorem acceptanceViolation?_eq_none_iff :
    A.acceptanceViolation? = none ↔ ∀ pair ∈ A.acceptance, A.PairDeclared pair := by
  simp only [acceptanceViolation?_eq_findSome?, List.findSome?_eq_none_iff, Prod.forall,
    List.mem_zipIdx_iff_getElem?, pairViolation?_eq_none_iff]
  constructor
  · intro h pair hpair
    obtain ⟨i, hi⟩ := List.mem_iff_getElem?.mp hpair
    exact h pair i hi
  · intro h pair i hi
    exact h pair (List.mem_of_getElem? hi)

theorem acceptanceViolation?_eq_some_iff : A.acceptanceViolation? = some v ↔
    ∃ i pair, FirstAt (¬A.PairDeclared ·) A.acceptance i pair ∧
      A.pairViolation? pair i = some v := by
  have hpair (pair : AcceptancePair) (i : Nat) :
      A.pairViolation? pair i = none ↔ ¬¬A.PairDeclared pair := by
    rw [pairViolation?_eq_none_iff, Classical.not_not]
  rw [acceptanceViolation?_eq_findSome?, findSome?_zipIdx_eq_some_iff hpair]
  simp only [Nat.zero_add]

/-! ## Automata -/

theorem violation?_eq_none_iff : A.violation? = none ↔ A.Valid := by
  simp only [violation?, Option.or_eq_none_iff, initialViolation?_eq_none_iff,
    moveViolation?_eq_none_iff, rowDeclared_iff, acceptanceViolation?_eq_none_iff]
  constructor
  · rintro ⟨hinitial, ⟨hsource, hmove⟩, hpair⟩
    exact ⟨hinitial, hsource, fun s x t h => (hmove s x t h).1, fun s x t h => (hmove s x t h).2,
      fun pair h => (hpair pair h).1, fun pair h => (hpair pair h).2⟩
  · intro h
    refine ⟨h.initial, ⟨h.source, ?_⟩, ?_⟩
    · intro s x t hnext
      exact ⟨h.symbol s x t hnext, h.successor s x t hnext⟩
    · intro pair hpair
      exact ⟨h.finitelyOften pair hpair, h.infinitelyOften pair hpair⟩

theorem violation?_eq_some_iff : A.violation? = some v ↔ A.FirstViolation v := by
  simp only [violation?, Option.or_eq_some_iff, initialViolation?_eq_some_iff,
    initialViolation?_eq_none_iff, moveViolation?_eq_some_iff, moveViolation?_eq_none_iff,
    acceptanceViolation?_eq_some_iff]
  constructor
  · rintro (⟨hstate, rfl⟩ | ⟨hinitial, ⟨s, row, hrow, h⟩ | ⟨hrows, i, pair, hpair, h⟩⟩)
    · exact .initial hstate
    · rcases rowViolation?_eq_some_iff.mp h with ⟨hstate, rfl⟩ | ⟨hstate, x, t, hmove, h⟩
      · exact .source hinitial hrow hstate
      rcases entryViolation?_eq_some_iff.mp h with ⟨hsymbol, rfl⟩ | ⟨hsymbol, htarget, rfl⟩
      · exact .symbol hinitial hrow hstate hmove hsymbol
      · exact .successor hinitial hrow hstate hmove hsymbol htarget
    · rcases pairViolation?_eq_some_iff.mp h with ⟨s, rfl, hstate⟩ | ⟨hfinitely, s, rfl, hstate⟩
      · exact .finitelyOften hinitial hrows hpair hstate
      · exact .infinitelyOften hinitial hrows hpair hfinitely hstate
  · intro h
    cases h with
    | initial hstate => exact .inl ⟨hstate, rfl⟩
    | source hinitial hrow hstate =>
      exact .inr ⟨hinitial, .inl ⟨_, _, hrow, rowViolation?_eq_some_iff.mpr (.inl ⟨hstate, rfl⟩)⟩⟩
    | symbol hinitial hrow hstate hmove hsymbol =>
      exact .inr ⟨hinitial, .inl ⟨_, _, hrow, rowViolation?_eq_some_iff.mpr (.inr ⟨hstate, _, _,
        hmove, entryViolation?_eq_some_iff.mpr (.inl ⟨hsymbol, rfl⟩)⟩)⟩⟩
    | successor hinitial hrow hstate hmove hsymbol htarget =>
      exact .inr ⟨hinitial, .inl ⟨_, _, hrow, rowViolation?_eq_some_iff.mpr (.inr ⟨hstate, _, _,
        hmove, entryViolation?_eq_some_iff.mpr (.inr ⟨hsymbol, htarget, rfl⟩)⟩)⟩⟩
    | finitelyOften hinitial hrows hpair hstate =>
      exact .inr ⟨hinitial, .inr ⟨hrows, _, _, hpair,
        pairViolation?_eq_some_iff.mpr (.inl ⟨_, rfl, hstate⟩)⟩⟩
    | infinitelyOften hinitial hrows hpair hfinitely hstate =>
      exact .inr ⟨hinitial, .inr ⟨hrows, _, _, hpair,
        pairViolation?_eq_some_iff.mpr (.inr ⟨hfinitely, _, rfl, hstate⟩)⟩⟩

theorem validate_eq_ok_iff {B : RabinAutomaton} : A.validate = .ok B ↔ A.Valid ∧ B = A := by
  unfold validate
  rw [← violation?_eq_none_iff, eq_comm (a := B)]
  split <;> simp_all

theorem validate_eq_error_iff : A.validate = .error v ↔ A.FirstViolation v := by
  unfold validate
  rw [← violation?_eq_some_iff]
  split <;> simp_all

/-! ## Runs -/

/-- A move leads from a declared state by a declared letter to a declared state. -/
theorem Valid.next (hA : A.Valid) (h : A.next? s x = some t) :
    s ∈ A.states ∧ x ∈ A.alphabet ∧ t ∈ A.states := by
  obtain ⟨row, hrow, _⟩ := next?_eq_some_iff.mp h
  exact ⟨hA.source s (Table.mem_iff_exists.mpr ⟨row, hrow⟩), hA.symbol s x t h,
    hA.successor s x t h⟩

theorem Valid.next?_eq_none (hA : A.Valid) (h : s ∉ A.states ∨ x ∉ A.alphabet) :
    A.next? s x = none := by
  rw [Option.eq_none_iff_forall_ne_some]
  intro t ht
  obtain ⟨hs, hx, _⟩ := hA.next ht
  exact h.elim (· hs) (· hx)

/-- A run has a move at a place exactly if the word can be read up to there. -/
theorem getElem?_run_eq_some_iff {word : List Proposition} {i : Nat} :
    (A.run s word)[i]? = some (x, t) ↔
      word[i]? = some x ∧ A.read? s (word.take (i + 1)) = some t := by
  induction word generalizing s i with
  | nil => simp [run]
  | cons y word ih =>
    rw [run, List.take_succ_cons, read?]
    cases hnext : A.next? s y with
    | none => simp
    | some u =>
      cases i with
      | zero => simp [read?]
      | succ i => simpa using ih

/-- Runs stay inside: each move takes a declared letter to a declared state. -/
theorem Valid.run (hA : A.Valid) {word : List Proposition} {move : Proposition × State}
    (h : move ∈ A.run s word) : move.1 ∈ A.alphabet ∧ move.2 ∈ A.states := by
  induction word generalizing s with
  | nil => cases h
  | cons x word ih =>
    rw [RabinAutomaton.run] at h
    cases hnext : A.next? s x with
    | none =>
      rw [hnext] at h
      cases h
    | some t =>
      rw [hnext] at h
      rcases List.mem_cons.mp h with rfl | h
      · exact (hA.next hnext).2
      · exact ih h

/-- **Which automata are valid, what is reported of the others, and where runs go.** A run is as
long as the word can be read, and in a valid automaton it stays inside. -/
theorem automaton_outcomes (A : RabinAutomaton) :
    (∀ B, A.validate = .ok B ↔ A.Valid ∧ B = A) ∧
    (∀ v, A.validate = .error v ↔ A.FirstViolation v) ∧
    (∀ s word i x t, (A.run s word)[i]? = some (x, t) ↔
      word[i]? = some x ∧ A.read? s (word.take (i + 1)) = some t) ∧
    (∀ B, A.validate = .ok B →
      B.initial ∈ B.states ∧
      (∀ word, ∀ move ∈ B.run B.initial word, move.1 ∈ B.alphabet ∧ move.2 ∈ B.states) ∧
      ∀ s x, s ∉ B.states ∨ x ∉ B.alphabet → B.next? s x = none) := by
  refine ⟨fun B => validate_eq_ok_iff, fun v => validate_eq_error_iff,
    fun s word i x t => getElem?_run_eq_some_iff, ?_⟩
  intro B h
  obtain ⟨hA, rfl⟩ := validate_eq_ok_iff.mp h
  exact ⟨hA.initial, fun word move hmove => hA.run hmove, fun s x hsx => hA.next?_eq_none hsx⟩

/-- There is no move by `b` from `q1`, so runs that meet this letter there end. -/
def stalling : RabinAutomaton :=
  ofEntries (State.ofNames ["q0", "q1"]) (.named "q0") (Label.ofNames ["a", "b"])
    [(.named "q0", [(⟨"a"⟩, .named "q1"), (⟨"b"⟩, .named "q0")]),
      (.named "q1", [(⟨"a"⟩, .named "q1")])]
    [⟨[], [.named "q1"]⟩]

/-- A source, a letter, a successor and a state of a pair are not declared. The successor is met
first: its source and its letter are below the others. -/
def misdirected : RabinAutomaton :=
  ofEntries (State.ofNames ["q0", "q1"]) (.named "q0") (Label.ofNames ["a", "b"])
    [(.named "q7", []), (.named "q1", [(⟨"c"⟩, .named "q0"), (⟨"b"⟩, .named "q5")]),
      (.named "q0", [(⟨"a"⟩, .named "q1")])]
    [⟨[.named "q4"], [.named "q1"]⟩]

theorem automaton_outcomes_stalling :
    stalling.validate = .ok stalling ∧ stalling.Valid ∧
    stalling.run (.named "q0") [⟨"a"⟩, ⟨"a"⟩, ⟨"b"⟩, ⟨"a"⟩] =
      [(⟨"a"⟩, .named "q1"), (⟨"a"⟩, .named "q1")] ∧
    (∀ word, ∀ move ∈ stalling.run stalling.initial word,
      move.1 ∈ stalling.alphabet ∧ move.2 ∈ stalling.states) ∧
    State.named "q2" ∉ stalling.states ∧ stalling.next? (.named "q2") ⟨"a"⟩ = none ∧
    misdirected.FirstViolation (.undeclaredSuccessor (.named "q1") ⟨"b"⟩ (.named "q5")) := by
  have hvalidate : stalling.validate = .ok stalling := by rfl
  have hfar : State.named "q2" ∉ stalling.states := by decide
  have hmisdirected : misdirected.validate =
      .error (.undeclaredSuccessor (.named "q1") ⟨"b"⟩ (.named "q5")) := by rfl
  obtain ⟨hok, _, _, hruns⟩ := automaton_outcomes stalling
  obtain ⟨_, hinside, hundefined⟩ := hruns stalling hvalidate
  exact ⟨hvalidate, ((hok stalling).mp hvalidate).1, by decide, hinside, hfar,
    hundefined _ _ (.inl hfar), ((automaton_outcomes misdirected).2.1 _).mp hmisdirected⟩

end TransitionSystems.RabinAutomaton
