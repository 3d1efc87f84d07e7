import TransitionSystems.Proofs.RabinAutomata
import TransitionSystems.Proofs.Steps

/-!
Tables, systems and automata written from lists of entries. Of all entries for one key, or for one
row and column, the last one counts (`Table.getElem?_ofList_eq_some_iff`,
`Grid.at?_ofRows_eq_some_iff`), wherever the others stand. Hence the moves of one source are merged,
later targets and later labels replace earlier ones, and what has been replaced is not looked at
when the system is checked (`last_entries_count`).
-/
namespace TransitionSystems

variable {κ ι α : Type}

/-- `x` is the last element of the list that has the property `p`. -/
def Last (p : α → Prop) (xs : List α) (x : α) : Prop :=
  p x ∧ ∃ before after, xs = before ++ x :: after ∧ ∀ y ∈ after, ¬p y

theorem Last.mem {p : α → Prop} {xs : List α} {x : α} (h : Last p xs x) : x ∈ xs := by
  obtain ⟨_, before, after, rfl, _⟩ := h
  simp

theorem exists_last {p : α → Prop} {xs : List α} (h : ∃ x ∈ xs, p x) : ∃ x, Last p xs x := by
  induction xs with
  | nil => simp at h
  | cons y xs ih =>
    by_cases hlater : ∃ x ∈ xs, p x
    · obtain ⟨x, hx, before, after, rfl, hafter⟩ := ih hlater
      exact ⟨x, hx, y :: before, after, rfl, hafter⟩
    · obtain ⟨x, hmem, hx⟩ := h
      rcases List.mem_cons.mp hmem with rfl | hmem
      · exact ⟨x, hx, [], xs, rfl, fun z hz hpz => hlater ⟨z, hz, hpz⟩⟩
      · exact absurd ⟨x, hmem, hx⟩ hlater

/-- The last element that has a property is the first one from the end. -/
theorem last_iff_first_reverse {p : α → Prop} {xs : List α} {x : α} :
    Last p xs x ↔ First p xs.reverse x := by
  rw [Last, first_iff_append]
  refine and_congr_right fun _ => ?_
  constructor
  · rintro ⟨before, after, rfl, hafter⟩
    exact ⟨after.reverse, before.reverse, by simp, by simpa using hafter⟩
  · rintro ⟨after, before, hsplit, hafter⟩
    refine ⟨before.reverse, after.reverse, ?_, by simpa using hafter⟩
    rw [← List.reverse_reverse xs, hsplit]
    simp

/-- A search from the end that selects by the property ends at the last element that has it. -/
theorem findSome?_reverse_eq_some_iff {β : Type} {p : α → Prop} {xs : List α} {f : α → Option β}
    (hf : ∀ y, f y = none ↔ ¬p y) {b : β} :
    xs.reverse.findSome? f = some b ↔ ∃ x, Last p xs x ∧ f x = some b := by
  simp only [findSome?_eq_some_iff_first hf, last_iff_first_reverse]

/-! ## Tables and grids -/

/-- Of the entries for the key `k`, the last one gives it `x`. -/
def Table.GivenLast (entries : List (κ × α)) (k : κ) (x : α) : Prop :=
  Last (fun entry => entry.1 = k) entries (k, x)

/-- Of the entries for row `k` and column `i`, in the order in which the rows list them, the last
one gives `x`. -/
def Grid.GivenLast (rows : List (κ × List (ι × α))) (k : κ) (i : ι) (x : α) : Prop :=
  Last (fun place => place.1 = k ∧ place.2.1 = i) (places rows) (k, i, x)

section
variable [Ord κ] [Std.TransOrd κ] [Std.LawfulEqOrd κ] [Ord ι] [Std.TransOrd ι] [Std.LawfulEqOrd ι]

/-- The table holds what is given last for each key, and nothing else. -/
def Table.HoldsLast (T : Table κ α) (entries : List (κ × α)) : Prop :=
  ∀ k x, T[k]? = some x ↔ GivenLast entries k x

/-- The grid has the given rows, those without entries too, and holds what is given last for each
place. -/
structure Grid.HoldsLast (g : Grid κ ι α) (rows : List (κ × List (ι × α))) : Prop where
  row : ∀ k, k ∈ g ↔ ∃ row ∈ rows, row.1 = k
  place : ∀ k i x, g.at? k i = some x ↔ GivenLast rows k i x

/-- Grids with the same rows and the same content at each place are equal. -/
theorem Grid.eq_of_at? {g h : Grid κ ι α} (hrows : ∀ k, k ∈ g ↔ k ∈ h)
    (hplaces : ∀ k i, g.at? k i = h.at? k i) : g = h := by
  refine Std.ExtTreeMap.ext_getElem? fun {k} => ?_
  simp only [Table.mem_iff_exists] at hrows
  cases hg : g[k]? with
  | none =>
    cases hh : h[k]? with
    | none => rfl
    | some row =>
      obtain ⟨row', hrow'⟩ := (hrows k).mpr ⟨row, hh⟩
      rw [hg] at hrow'
      cases hrow'
  | some row =>
    obtain ⟨row', hh⟩ := (hrows k).mp ⟨row, hg⟩
    have hsame : row = row' := by
      refine Std.ExtTreeMap.ext_getElem? fun {i} => ?_
      simpa [at?, hg, hh] using hplaces k i
    rw [hh, hsame]

variable [DecidableEq κ] [DecidableEq ι]

theorem Table.getElem?_ofList_eq_some_iff {entries : List (κ × α)} {k : κ} {x : α} :
    (Std.ExtTreeMap.ofList entries compare)[k]? = some x ↔ GivenLast entries k x := by
  have hselect (entry : κ × α) :
      (if compare entry.1 k = .eq then some entry.2 else none) = none ↔ ¬entry.1 = k := by
    simp
  rw [Std.ExtTreeMap.ofList_eq_insertMany_empty, Std.ExtTreeMap.getElem?_insertMany_list,
    List.findSomeRev?_eq_findSome?_reverse]
  simp only [Std.ExtTreeMap.getElem?_empty, Option.or_none]
  rw [findSome?_reverse_eq_some_iff hselect]
  constructor
  · rintro ⟨⟨k', x'⟩, hlast, hx⟩
    obtain rfl : k' = k := hlast.1
    obtain rfl : x' = x := by simpa using hx
    exact hlast
  · intro hlast
    exact ⟨(k, x), hlast, by simp⟩

theorem Grid.at?_ofRows_eq_some_iff {rows : List (κ × List (ι × α))} {k : κ} {i : ι} {x : α} :
    (ofRows rows : Grid κ ι α).at? k i = some x ↔ GivenLast rows k i x := by
  have hselect (place : κ × ι × α) :
      contentAt? k i place = none ↔ ¬(place.1 = k ∧ place.2.1 = i) := by
    simp [contentAt?]
  rw [at?_ofRows, findSome?_reverse_eq_some_iff hselect]
  constructor
  · rintro ⟨⟨k', i', x'⟩, hlast, hx⟩
    obtain ⟨rfl, rfl⟩ : k' = k ∧ i' = i := hlast.1
    obtain rfl : x' = x := by simpa [contentAt?] using hx
    exact hlast
  · intro hlast
    exact ⟨(k, i, x), hlast, by simp [contentAt?]⟩

theorem Table.holdsLast_ofList (entries : List (κ × α)) :
    HoldsLast (.ofList entries compare) entries :=
  fun _ _ => getElem?_ofList_eq_some_iff

theorem Table.holdsLast_iff {T : Table κ α} {entries : List (κ × α)} :
    T.HoldsLast entries ↔ T = .ofList entries compare := by
  constructor
  · intro h
    refine Std.ExtTreeMap.ext_getElem? fun {k} => Option.ext fun x => ?_
    rw [h k x, getElem?_ofList_eq_some_iff]
  · rintro rfl
    exact holdsLast_ofList entries

theorem Grid.holdsLast_ofRows (rows : List (κ × List (ι × α))) :
    HoldsLast (ofRows rows : Grid κ ι α) rows where
  row := fun _ => mem_ofRows
  place := fun _ _ _ => at?_ofRows_eq_some_iff

theorem Grid.holdsLast_iff {g : Grid κ ι α} {rows : List (κ × List (ι × α))} :
    g.HoldsLast rows ↔ g = ofRows rows := by
  constructor
  · intro h
    refine eq_of_at? (fun k => by rw [h.row k, mem_ofRows]) fun k i => Option.ext fun x => ?_
    rw [h.place k i x, at?_ofRows_eq_some_iff]
  · rintro rfl
    exact holdsLast_ofRows rows

end

/-! ## Systems and automata -/

namespace System

variable {S : System} {moves : List (State × List (Action × List State))}
  {labels : List (State × Label)} {s : State} {a : Action}

theorem targets_of_givenLast (hS : S.moves.HoldsLast moves) {ts : List State}
    (h : Grid.GivenLast moves s a ts) : S.targets s a = ts :=
  targets_of_at? ((hS.place s a ts).mpr h)

theorem targets_eq_nil_of_not_given (hS : S.moves.HoldsLast moves)
    (h : ∀ ts, (s, a, ts) ∉ Grid.places moves) : S.targets s a = [] := by
  rw [List.eq_nil_iff_forall_not_mem]
  intro t ht
  obtain ⟨ts, hts, _⟩ := at?_of_mem_targets ht
  exact h ts ((hS.place s a ts).mp hts).mem

theorem label_of_givenLast (hS : S.labels.HoldsLast labels) {l : Label}
    (h : Table.GivenLast labels s l) : S.label s = l :=
  label_of_getElem? ((hS s l).mpr h)

theorem label_eq_nil_of_not_given (hS : S.labels.HoldsLast labels) (h : ∀ l, (s, l) ∉ labels) :
    S.label s = [] := by
  rw [List.eq_nil_iff_forall_not_mem]
  intro p hp
  obtain ⟨l, hl, _⟩ := getElem?_of_mem_label hp
  exact h l ((hS s l).mp hl).mem

theorem mem_labels_iff_given (hS : S.labels.HoldsLast labels) :
    s ∈ S.labels ↔ ∃ entry ∈ labels, entry.1 = s := by
  rw [Table.mem_iff_exists]
  constructor
  · rintro ⟨l, hl⟩
    exact ⟨(s, l), ((hS s l).mp hl).mem, rfl⟩
  · intro h
    obtain ⟨⟨_, l⟩, hlast⟩ := exists_last h
    obtain rfl := hlast.1
    exact ⟨l, (hS _ l).mpr hlast⟩

/-- All sources and all labelled states have to be declared, but of the targets and labels only
those that are given last. -/
theorem valid_iff_of_holdsLast (hmoves : S.moves.HoldsLast moves)
    (hlabels : S.labels.HoldsLast labels) :
    S.Valid ↔ (∀ s ∈ S.initial, s ∈ S.states) ∧ (∀ row ∈ moves, row.1 ∈ S.states) ∧
      (∀ s a ts, Grid.GivenLast moves s a ts → a ∈ S.actions ∧ ∀ t ∈ ts, t ∈ S.states) ∧
      (∀ entry ∈ labels, entry.1 ∈ S.states) ∧
      ∀ s l, Table.GivenLast labels s l → ∀ p ∈ l, p ∈ S.propositions := by
  constructor
  · intro h
    refine ⟨h.initial, ?_, ?_, ?_, ?_⟩
    · intro row hrow
      exact h.source row.1 ((hmoves.row row.1).mpr ⟨row, hrow, rfl⟩)
    · intro s a ts hlast
      refine ⟨h.action s a ts ((hmoves.place s a ts).mpr hlast), ?_⟩
      rw [← targets_of_givenLast hmoves hlast]
      exact h.target s a
    · intro entry hentry
      exact h.labelled entry.1 ((mem_labels_iff_given hlabels).mpr ⟨entry, hentry, rfl⟩)
    · intro s l hlast
      rw [← label_of_givenLast hlabels hlast]
      exact h.proposition s
  · rintro ⟨hinitial, hsource, hentry, hlabelled, hproposition⟩
    refine ⟨hinitial, ?_, ?_, ?_, ?_, ?_⟩
    · intro s hs
      obtain ⟨row, hrow, rfl⟩ := (hmoves.row s).mp hs
      exact hsource row hrow
    · intro s a ts hts
      exact (hentry s a ts ((hmoves.place s a ts).mp hts)).1
    · intro s a t ht
      obtain ⟨ts, hts, ht⟩ := at?_of_mem_targets ht
      exact (hentry s a ts ((hmoves.place s a ts).mp hts)).2 t ht
    · intro s hs
      obtain ⟨entry, hmem, rfl⟩ := (mem_labels_iff_given hlabels).mp hs
      exact hlabelled entry hmem
    · intro s p hp
      obtain ⟨l, hl, hpl⟩ := getElem?_of_mem_label hp
      exact hproposition s l ((hlabels s l).mp hl) p hpl

end System

/-- **Of several entries the last one counts.** A valid system steps to the targets that are given
last for a source and an action, each once, and has the label that is given last; it is valid, and
is the same system, as if only the last entries had been given. An automaton moves to the successor
given last. -/
theorem last_entries_count :
    (∀ states actions moves initial propositions labels,
      (∀ S, (System.ofEntries states actions moves initial propositions labels).validate = .ok S →
        (∀ s a ts, Grid.GivenLast moves s a ts → S.successorsBy s a = ts.eraseDups) ∧
        (∀ s a, (∀ ts, (s, a, ts) ∉ Grid.places moves) → S.successorsBy s a = []) ∧
        (∀ s l, Table.GivenLast labels s l → S.label s = l) ∧
        ∀ s, (∀ l, (s, l) ∉ labels) → S.label s = []) ∧
      ((∃ S, (System.ofEntries states actions moves initial propositions labels).validate = .ok S) ↔
        (∀ s ∈ initial, s ∈ states) ∧ (∀ row ∈ moves, row.1 ∈ states) ∧
        (∀ s a ts, Grid.GivenLast moves s a ts → a ∈ actions ∧ ∀ t ∈ ts, t ∈ states) ∧
        (∀ entry ∈ labels, entry.1 ∈ states) ∧
        ∀ s l, Table.GivenLast labels s l → ∀ p ∈ l, p ∈ propositions) ∧
      ∃ g T, (∀ h, Grid.HoldsLast h moves ↔ h = g) ∧ (∀ U, Table.HoldsLast U labels ↔ U = T) ∧
        (System.ofEntries states actions moves initial propositions labels).validate =
          System.validate ⟨states, actions, g, initial, propositions, T⟩) ∧
    ∀ states initial alphabet moves acceptance A,
      (RabinAutomaton.ofEntries states initial alphabet moves acceptance).validate = .ok A →
        ∀ s x t, A.next? s x = some t ↔ Grid.GivenLast moves s x t := by
  refine ⟨fun states actions moves initial propositions labels => ?_, ?_⟩
  · have hmoves := Grid.holdsLast_ofRows moves
    have hlabels := Table.holdsLast_ofList labels
    refine ⟨?_, ?_, _, _, fun h => Grid.holdsLast_iff, fun U => Table.holdsLast_iff, rfl⟩
    · intro S hS
      obtain ⟨_, rfl⟩ := System.validate_eq_ok_iff.mp hS
      refine ⟨?_, ?_, ?_, ?_⟩
      · intro s a ts hlast
        rw [System.successorsBy, System.targets_of_givenLast hmoves hlast]
      · intro s a hnone
        rw [System.successorsBy, System.targets_eq_nil_of_not_given hmoves hnone]
        rfl
      · intro s l hlast
        exact System.label_of_givenLast hlabels hlast
      · intro s hnone
        exact System.label_eq_nil_of_not_given hlabels hnone
    · simp only [System.validate_eq_ok_iff, exists_and_left, exists_eq, and_true]
      exact System.valid_iff_of_holdsLast hmoves hlabels
  · intro states initial alphabet moves acceptance A hA s x t
    obtain ⟨_, rfl⟩ := RabinAutomaton.validate_eq_ok_iff.mp hA
    exact Grid.at?_ofRows_eq_some_iff

/-- The moves of `1` are given in two places, and the targets given first are not declared. -/
def overwrittenMoves : List (State × List (Action × List State)) :=
  [(.named "1", [(⟨"a"⟩, State.ofNames ["9"]), (⟨"b"⟩, State.ofNames ["1"])]), (.named "2", []),
    (.named "1", [(⟨"a"⟩, State.ofNames ["2", "1", "2"])])]

/-- The label given first has a proposition that is not declared. -/
def overwrittenLabels : List (State × Label) :=
  [(.named "1", Label.ofNames ["q"]), (.named "1", Label.ofNames ["p"])]

def overwritten : System :=
  .ofEntries (State.ofNames ["1", "2"]) [⟨"a"⟩, ⟨"b"⟩] overwrittenMoves (State.ofNames ["1"])
    (Label.ofNames ["p"]) overwrittenLabels

/-- The loop is given first, and then the move that replaces it. -/
def divertedMoves : List (State × List (Proposition × State)) :=
  [(.named "q", [(⟨"a"⟩, .named "q"), (⟨"a"⟩, .named "r")]), (.named "r", [])]

def diverted : RabinAutomaton :=
  .ofEntries (State.ofNames ["q", "r"]) (.named "q") (Label.ofNames ["a"]) divertedMoves []

theorem last_entries_count_overwritten :
    overwritten.validate = .ok overwritten ∧
    overwritten.successorsBy (.named "1") ⟨"a"⟩ = State.ofNames ["2", "1"] ∧
    overwritten.successorsBy (.named "2") ⟨"a"⟩ = [] ∧
    overwritten.label (.named "1") = Label.ofNames ["p"] ∧
    overwritten.label (.named "2") = [] ∧
    diverted.validate = .ok diverted ∧
    diverted.next? (.named "q") ⟨"a"⟩ = some (.named "r") := by
  have hvalidate : overwritten.validate = .ok overwritten := by rfl
  have hmove : Grid.GivenLast overwrittenMoves (.named "1") ⟨"a"⟩ (State.ofNames ["2", "1", "2"]) :=
    ⟨⟨rfl, rfl⟩, (Grid.places overwrittenMoves).take 2, [], rfl, nofun⟩
  have hlabel : Table.GivenLast overwrittenLabels (.named "1") (Label.ofNames ["p"]) :=
    ⟨rfl, overwrittenLabels.take 1, [], rfl, nofun⟩
  have hdiverted : diverted.validate = .ok diverted := by rfl
  have hnext : Grid.GivenLast divertedMoves (.named "q") ⟨"a"⟩ (.named "r") :=
    ⟨⟨rfl, rfl⟩, (Grid.places divertedMoves).take 1, [], rfl, nofun⟩
  obtain ⟨hsteps, hnone, hlabels, hunlabelled⟩ :=
    (last_entries_count.1 _ _ _ _ _ _).1 overwritten hvalidate
  exact ⟨hvalidate, hsteps _ _ _ hmove, hnone _ _ (by simp [Grid.places, overwrittenMoves]),
    hlabels _ _ hlabel, hunlabelled _ (by simp [overwrittenLabels]), hdiverted,
    (last_entries_count.2 _ _ _ _ _ diverted hdiverted _ _ _).mpr hnext⟩

end TransitionSystems
