import TransitionSystems.Proofs.Violations.FirstHits
import TransitionSystems.System.Validity

/-!
What is reported of systems. A system that uses something undeclared is reported for the first such
use: initial states in the order of their list, then the sources of moves, then moves by ascending
sources and actions, and labels by ascending states last (`validation_outcomes`). What passes is
returned as it was given.
-/
namespace TransitionSystems.System

/-- Entries for the action `a` with the targets `ts` use declared names only. -/
def EntryDeclared (S : System) (a : Action) (ts : List State) : Prop :=
  a ∈ S.actions ∧ ∀ t ∈ ts, t ∈ S.states

/-- Of the stored entries that use something undeclared, the one for `s` and `a` comes first by
ascending sources, and for one source by ascending actions. -/
structure FirstBadEntry (S : System) (s : State) (a : Action) (ts : List State) : Prop where
  stored : S.moves.at? s a = some ts
  bad : ¬S.EntryDeclared a ts
  least : ∀ s' a' ts', S.moves.at? s' a' = some ts' →
    compare s' s = .lt ∨ s' = s ∧ compare a' a = .lt → S.EntryDeclared a' ts'

/-- The state is declared, and its label `l` uses declared propositions only. -/
def LabelDeclared (S : System) (s : State) (l : Label) : Prop :=
  s ∈ S.states ∧ ∀ p ∈ l, p ∈ S.propositions

/-- Of the labels that use something undeclared, the one of `s` comes first by ascending states. -/
structure FirstBadLabel (S : System) (s : State) (l : Label) : Prop where
  stored : S.labels[s]? = some l
  bad : ¬S.LabelDeclared s l
  least : ∀ s' l', S.labels[s']? = some l' → compare s' s = .lt → S.LabelDeclared s' l'

/-- What is wrong with the system first. Each kind of use is looked at only if those before it are
declared; all sources come before any action or target. -/
inductive FirstViolation (S : System) : Violation → Prop
  | initial {s : State} (hstate : First (· ∉ S.states) S.initial s) :
      S.FirstViolation (.undeclaredInitial s)
  | source {s : State} (hinitial : ∀ t ∈ S.initial, t ∈ S.states) (hmoves : s ∈ S.moves)
      (hstate : s ∉ S.states) (hleast : ∀ t ∈ S.moves, compare t s = .lt → t ∈ S.states) :
      S.FirstViolation (.undeclaredSource s)
  | action {s : State} {a : Action} {ts : List State} (hinitial : ∀ t ∈ S.initial, t ∈ S.states)
      (hsources : ∀ t ∈ S.moves, t ∈ S.states) (hentry : S.FirstBadEntry s a ts)
      (haction : a ∉ S.actions) : S.FirstViolation (.undeclaredAction s a)
  | target {s : State} {a : Action} {ts : List State} {t : State}
      (hinitial : ∀ t ∈ S.initial, t ∈ S.states) (hsources : ∀ t ∈ S.moves, t ∈ S.states)
      (hentry : S.FirstBadEntry s a ts) (haction : a ∈ S.actions)
      (htarget : First (· ∉ S.states) ts t) : S.FirstViolation (.undeclaredTarget s a t)
  | labelled {s : State} {l : Label} (hinitial : ∀ t ∈ S.initial, t ∈ S.states)
      (hsources : ∀ t ∈ S.moves, t ∈ S.states)
      (hentries : ∀ t a ts, S.moves.at? t a = some ts → S.EntryDeclared a ts)
      (hlabel : S.FirstBadLabel s l) (hstate : s ∉ S.states) :
      S.FirstViolation (.undeclaredLabelled s)
  | proposition {s : State} {l : Label} {p : Proposition} (hinitial : ∀ t ∈ S.initial, t ∈ S.states)
      (hsources : ∀ t ∈ S.moves, t ∈ S.states)
      (hentries : ∀ t a ts, S.moves.at? t a = some ts → S.EntryDeclared a ts)
      (hlabel : S.FirstBadLabel s l) (hstate : s ∈ S.states)
      (hproposition : First (· ∉ S.propositions) l p) :
      S.FirstViolation (.undeclaredProposition s p)

variable {S : System} {v : Violation} {s : State} {a : Action}

/-- The owner of a list is looked at before the list. -/
theorem ite_undeclared_eq_some_iff {α : Type} [DecidableEq α] {xs declared : List α}
    {f : α → Violation} {c : Prop} [Decidable c] {w : Violation} :
    (if c then (xs.find? (· ∉ declared)).map f else some w) = some v ↔
      (¬c ∧ v = w) ∨ (c ∧ ∃ x, v = f x ∧ First (· ∉ declared) xs x) := by
  by_cases hc : c
  · simp only [hc, if_true, map_find?_undeclared_eq_some_iff, not_true, false_and, false_or,
      true_and]
  · simp only [hc, if_false, Option.some.injEq, not_false_eq_true, true_and, false_and, or_false,
      eq_comm]

theorem initialViolation?_eq_some_iff : S.initialViolation? = some v ↔
    ∃ s, v = .undeclaredInitial s ∧ First (· ∉ S.states) S.initial s :=
  map_find?_undeclared_eq_some_iff

/-! ## Moves -/

/-- Sources are looked at in ascending order. -/
theorem first_keys_iff : First (· ∉ S.states) S.moves.keys s ↔
    s ∈ S.moves ∧ s ∉ S.states ∧ ∀ t ∈ S.moves, compare t s = .lt → t ∈ S.states := by
  rw [first_iff_least (fun _ _ => Std.OrientedCmp.not_lt_of_lt) Std.ExtTreeMap.ordered_keys]
  simp only [Std.ExtTreeMap.mem_keys, Classical.not_not]

theorem first_places_iff {ts : List State} :
    First (fun place => ¬S.EntryDeclared place.2.1 place.2.2) (Grid.places S.moves.rows)
        (s, a, ts) ↔
      S.FirstBadEntry s a ts := by
  rw [first_iff_least Grid.place_lt_asymm (Grid.ordered_places_rows S.moves)]
  simp only [Prod.forall, Grid.mem_places_rows, Classical.not_not]
  constructor
  · rintro ⟨hstored, hbad, hleast⟩
    exact ⟨hstored, hbad, hleast⟩
  · rintro ⟨hstored, hbad, hleast⟩
    exact ⟨hstored, hbad, hleast⟩

theorem entryViolation?_eq_some_iff {ts : List State} : S.entryViolation? s (a, ts) = some v ↔
    (a ∉ S.actions ∧ v = .undeclaredAction s a) ∨
      (a ∈ S.actions ∧ ∃ t, v = .undeclaredTarget s a t ∧ First (· ∉ S.states) ts t) :=
  ite_undeclared_eq_some_iff

theorem findSome?_entryViolation?_eq_some_iff :
    (S.moves.rows.findSome? fun row => row.2.findSome? (S.entryViolation? row.1)) = some v ↔
      ∃ s a ts, S.FirstBadEntry s a ts ∧ S.entryViolation? s (a, ts) = some v := by
  rw [← Grid.findSome?_places,
    findSome?_eq_some_iff_first (p := fun place => ¬S.EntryDeclared place.2.1 place.2.2)]
  · simp only [Prod.exists, first_places_iff]
  · intro place
    rw [entryViolation?_eq_none_iff, Classical.not_not, EntryDeclared]

theorem moveViolation?_eq_some_iff : S.moveViolation? = some v ↔
    (∃ s, v = .undeclaredSource s ∧ s ∈ S.moves ∧ s ∉ S.states ∧
      ∀ t ∈ S.moves, compare t s = .lt → t ∈ S.states) ∨
    ((∀ s ∈ S.moves, s ∈ S.states) ∧
      ∃ s a ts, S.FirstBadEntry s a ts ∧ S.entryViolation? s (a, ts) = some v) := by
  simp only [moveViolation?, Option.or_eq_some_iff, map_find?_undeclared_eq_some_iff,
    first_keys_iff, Option.map_eq_none_iff, List.find?_eq_none, Std.ExtTreeMap.mem_keys,
    decide_eq_true_eq, Classical.not_not, findSome?_entryViolation?_eq_some_iff]

/-! ## Labels -/

theorem firstEntry_labels_iff {l : Label} :
    FirstEntry (fun s l => ¬S.LabelDeclared s l) S.labels s l ↔ S.FirstBadLabel s l := by
  constructor
  · rintro ⟨hstored, hbad, hleast⟩
    exact ⟨hstored, hbad, fun s' l' hl' hlt => Classical.not_not.mp (hleast s' l' hl' hlt)⟩
  · rintro ⟨hstored, hbad, hleast⟩
    exact ⟨hstored, hbad, fun s' l' hl' hlt => Classical.not_not.mpr (hleast s' l' hl' hlt)⟩

theorem labelViolation?_eq_some_iff : S.labelViolation? = some v ↔
    ∃ s l, S.FirstBadLabel s l ∧ ((s ∉ S.states ∧ v = .undeclaredLabelled s) ∨
      (s ∈ S.states ∧ ∃ p, v = .undeclaredProposition s p ∧ First (· ∉ S.propositions) l p)) := by
  rw [labelViolation?, findSome?_toList_eq_some_iff (q := fun s l => ¬S.LabelDeclared s l)]
  · simp only [firstEntry_labels_iff, ite_undeclared_eq_some_iff]
  · intro s l
    rw [Classical.not_not, LabelDeclared]
    split <;> simp_all

/-! ## Systems -/

theorem violation?_eq_some_iff : S.violation? = some v ↔ S.FirstViolation v := by
  simp only [violation?, Option.or_eq_some_iff, initialViolation?_eq_some_iff,
    initialViolation?_eq_none_iff, moveViolation?_eq_some_iff, moveViolation?_eq_none_iff,
    labelViolation?_eq_some_iff]
  constructor
  · rintro (⟨s, rfl, hstate⟩ | ⟨hinitial, h⟩)
    · exact .initial hstate
    rcases h with (⟨s, rfl, hmoves, hstate, hleast⟩ | ⟨hsources, s, a, ts, hentry, h⟩) |
      ⟨⟨hsources, hentries⟩, s, l, hlabel, h⟩
    · exact .source hinitial hmoves hstate hleast
    · rcases entryViolation?_eq_some_iff.mp h with ⟨haction, rfl⟩ | ⟨haction, t, rfl, htarget⟩
      · exact .action hinitial hsources hentry haction
      · exact .target hinitial hsources hentry haction htarget
    · rcases h with ⟨hstate, rfl⟩ | ⟨hstate, p, rfl, hproposition⟩
      · exact .labelled hinitial hsources hentries hlabel hstate
      · exact .proposition hinitial hsources hentries hlabel hstate hproposition
  · intro h
    cases h with
    | initial hstate => exact .inl ⟨_, rfl, hstate⟩
    | source hinitial hmoves hstate hleast =>
      exact .inr ⟨hinitial, .inl (.inl ⟨_, rfl, hmoves, hstate, hleast⟩)⟩
    | action hinitial hsources hentry haction =>
      exact .inr ⟨hinitial, .inl (.inr ⟨hsources, _, _, _, hentry,
        entryViolation?_eq_some_iff.mpr (.inl ⟨haction, rfl⟩)⟩)⟩
    | target hinitial hsources hentry haction htarget =>
      exact .inr ⟨hinitial, .inl (.inr ⟨hsources, _, _, _, hentry,
        entryViolation?_eq_some_iff.mpr (.inr ⟨haction, _, rfl, htarget⟩)⟩)⟩
    | labelled hinitial hsources hentries hlabel hstate =>
      exact .inr ⟨hinitial, .inr ⟨⟨hsources, hentries⟩, _, _, hlabel, .inl ⟨hstate, rfl⟩⟩⟩
    | proposition hinitial hsources hentries hlabel hstate hproposition =>
      exact .inr ⟨hinitial, .inr ⟨⟨hsources, hentries⟩, _, _, hlabel,
        .inr ⟨hstate, _, rfl, hproposition⟩⟩⟩

/-- **Which systems are valid, and what is reported of the others.** -/
theorem validation_outcomes (S : System) :
    (S.violation? = none ↔ S.Valid) ∧
    (∀ v, S.violation? = some v ↔ S.FirstViolation v) ∧
    (∀ T, S.validate = .ok T ↔ S.violation? = none ∧ T = S) ∧
    (∀ v, S.validate = .error v ↔ S.violation? = some v) := by
  refine ⟨violation?_eq_none_iff, fun v => violation?_eq_some_iff, fun T => ?_,
    fun v => validate_eq_error_iff⟩
  rw [validate_eq_ok_iff, violation?_eq_none_iff]

/-- Sources go by kinds: of those that are not declared, a pair of states comes before a block. The
action by which the pair is left is not declared either, but sources are looked at first. -/
example : (ofEntries [.named "1"] [⟨"a"⟩]
    [(.block [.named "1"], []), (.product (.named "1") (.named "1"), [(⟨"b"⟩, [])])]
    [.named "1"] [] [(.named "9", [])]).violation? =
      some (.undeclaredSource (.product (.named "1") (.named "1"))) := by
  decide

end TransitionSystems.System
