import TransitionSystems.System.Basic

/-!
Which systems use declared names only. `System.violation?` reports the first violation: initial
states in the order of their list; then all sources of moves, in ascending order; then, row by row
in ascending order, actions and their targets; then labels in ascending order of their states. The
main statement is that nothing is reported exactly for the valid systems.
-/
namespace TransitionSystems.System

/-- Whatever the system uses it declares. -/
structure Valid (S : System) : Prop where
  initial : ∀ s ∈ S.initial, s ∈ S.states
  source : ∀ s ∈ S.moves, s ∈ S.states
  action : ∀ s a ts, S.moves.at? s a = some ts → a ∈ S.actions
  target : ∀ s a, ∀ t ∈ S.targets s a, t ∈ S.states
  labelled : ∀ s ∈ S.labels, s ∈ S.states
  proposition : ∀ s, ∀ p ∈ S.label s, p ∈ S.propositions

def initialViolation? (S : System) : Option Violation :=
  (S.initial.find? (· ∉ S.states)).map .undeclaredInitial

/-- The first fault of one entry of the row of `s`: its action, then its targets in order. -/
def entryViolation? (S : System) (s : State) (entry : Action × List State) : Option Violation :=
  if entry.1 ∈ S.actions then
    (entry.2.find? (· ∉ S.states)).map (.undeclaredTarget s entry.1)
  else
    some (.undeclaredAction s entry.1)

def moveViolation? (S : System) : Option Violation :=
  ((S.moves.keys.find? (· ∉ S.states)).map .undeclaredSource).or
    (S.moves.rows.findSome? fun row => row.2.findSome? (S.entryViolation? row.1))

def labelViolation? (S : System) : Option Violation :=
  S.labels.toList.findSome? fun entry =>
    if entry.1 ∈ S.states then
      (entry.2.find? (· ∉ S.propositions)).map (.undeclaredProposition entry.1)
    else
      some (.undeclaredLabelled entry.1)

/-- The first violation, if there is one. -/
def violation? (S : System) : Option Violation :=
  S.initialViolation?.or (S.moveViolation?.or S.labelViolation?)

/-- The system itself, provided that it is valid. -/
def validate (S : System) : Except Violation System :=
  match S.violation? with
  | none => .ok S
  | some v => .error v

theorem initialViolation?_eq_none_iff {S : System} :
    S.initialViolation? = none ↔ ∀ s ∈ S.initial, s ∈ S.states := by
  simp [initialViolation?]

theorem entryViolation?_eq_none_iff {S : System} {s : State} {entry : Action × List State} :
    S.entryViolation? s entry = none ↔ entry.1 ∈ S.actions ∧ ∀ t ∈ entry.2, t ∈ S.states := by
  unfold entryViolation?
  split <;> simp_all

theorem moveViolation?_eq_none_iff {S : System} :
    S.moveViolation? = none ↔ (∀ s ∈ S.moves, s ∈ S.states) ∧
      ∀ s a ts, S.moves.at? s a = some ts → a ∈ S.actions ∧ ∀ t ∈ ts, t ∈ S.states := by
  simp only [moveViolation?, Option.or_eq_none_iff, Option.map_eq_none_iff, List.find?_eq_none,
    List.findSome?_eq_none_iff, entryViolation?_eq_none_iff, Std.ExtTreeMap.mem_keys,
    decide_eq_true_eq, Classical.not_not]
  refine and_congr_right fun _ => ?_
  simp only [Grid.rows, List.mem_map, Prod.exists, Grid.at?]
  constructor
  · intro h s a ts hts
    obtain ⟨row, hrow, hentry⟩ := Option.bind_eq_some_iff.1 hts
    exact h _ ⟨s, row, Std.ExtTreeMap.mem_toList_iff_getElem?_eq_some.2 hrow, rfl⟩ (a, ts)
      (Std.ExtTreeMap.mem_toList_iff_getElem?_eq_some.2 hentry)
  · rintro h _ ⟨s, row, hrow, rfl⟩ ⟨a, ts⟩ hentry
    refine h s a ts (Option.bind_eq_some_iff.2 ⟨row, ?_, ?_⟩)
    · exact Std.ExtTreeMap.mem_toList_iff_getElem?_eq_some.1 hrow
    · exact Std.ExtTreeMap.mem_toList_iff_getElem?_eq_some.1 hentry

theorem labelViolation?_eq_none_iff {S : System} :
    S.labelViolation? = none ↔
      (∀ s ∈ S.labels, s ∈ S.states) ∧ ∀ s, ∀ p ∈ S.label s, p ∈ S.propositions := by
  simp only [labelViolation?, List.findSome?_eq_none_iff, Prod.forall,
    Std.ExtTreeMap.mem_toList_iff_getElem?_eq_some]
  constructor
  · intro h
    have entry (s : State) (l : Label) (hl : S.labels[s]? = some l) :
        s ∈ S.states ∧ ∀ p ∈ l, p ∈ S.propositions := by
      have := h s l hl
      split at this <;> simp_all
    refine ⟨fun s hs => ?_, fun s p hp => ?_⟩
    · exact (entry s S.labels[s] (Std.ExtTreeMap.getElem?_eq_some_getElem hs)).1
    · obtain ⟨l, hl, hpl⟩ := getElem?_of_mem_label hp
      exact (entry s l hl).2 p hpl
  · rintro ⟨hs, hp⟩ s l hl
    rw [if_pos (hs s (Table.mem_iff_exists.2 ⟨l, hl⟩)), Option.map_eq_none_iff, List.find?_eq_none]
    intro p hpl
    have hp := hp s p (by rwa [label_of_getElem? hl])
    simpa using hp

theorem violation?_eq_none_iff {S : System} : S.violation? = none ↔ S.Valid := by
  simp only [violation?, Option.or_eq_none_iff, initialViolation?_eq_none_iff,
    moveViolation?_eq_none_iff, labelViolation?_eq_none_iff]
  constructor
  · rintro ⟨hi, ⟨hs, hm⟩, hl, hp⟩
    refine ⟨hi, hs, fun s a ts h => (hm s a ts h).1, fun s a t ht => ?_, hl, hp⟩
    obtain ⟨ts, hts, ht⟩ := at?_of_mem_targets ht
    exact (hm s a ts hts).2 t ht
  · rintro ⟨hi, hs, ha, ht, hl, hp⟩
    exact ⟨hi, ⟨hs, fun s a ts h => ⟨ha s a ts h, fun t hts =>
      ht s a t (by rwa [targets_of_at? h])⟩⟩, hl, hp⟩

instance (S : System) : Decidable S.Valid := decidable_of_iff _ violation?_eq_none_iff

theorem validate_eq_ok_iff {S T : System} : S.validate = .ok T ↔ S.Valid ∧ T = S := by
  unfold validate
  rw [← violation?_eq_none_iff, eq_comm (a := T)]
  split
  · rename_i h
    simp [h]
  · rename_i v h
    simp [h]

theorem validate_eq_error_iff {S : System} {v : Violation} :
    S.validate = .error v ↔ S.violation? = some v := by
  unfold validate
  split
  · rename_i h
    simp [h]
  · rename_i w h
    simp [h]

/-- If only declared states have labels, a label can only be at fault for a proposition. -/
theorem of_labelViolation?_eq_some {S : System} {v : Violation}
    (hS : ∀ s ∈ S.labels, s ∈ S.states) (h : S.labelViolation? = some v) :
    ∃ s ∈ S.states, ∃ p ∈ S.label s, p ∉ S.propositions ∧ v = .undeclaredProposition s p := by
  obtain ⟨⟨s, l⟩, hl, hv⟩ := List.exists_of_findSome?_eq_some h
  have hl := Std.ExtTreeMap.mem_toList_iff_getElem?_eq_some.1 hl
  have hs : s ∈ S.states := hS s (Table.mem_iff_exists.2 ⟨l, hl⟩)
  rw [if_pos hs] at hv
  obtain ⟨p, hp, rfl⟩ := Option.map_eq_some_iff.1 hv
  exact ⟨s, hs, p, label_of_getElem? hl ▸ List.mem_of_find?_eq_some hp,
    by simpa using List.find?_some hp, rfl⟩

end TransitionSystems.System
