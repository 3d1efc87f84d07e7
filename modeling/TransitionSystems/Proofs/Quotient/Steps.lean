import TransitionSystems.Proofs.Steps
import TransitionSystems.Quotient

/-!
Quotients by partitions. If all propositions that hold in a state are declared, every partition has
a quotient, which is valid (`quotient_eq_ok`), and only then (`of_quotient_eq_ok` and
`IsPartition.valid_quotientParts_iff`). It has just the steps between blocks that some of their
states make (`IsPartition.block_mem_successorsBy_iff`).
-/
namespace TransitionSystems.System

variable {S : System} {Q : Partition} {B C : List State} {s u : State} {a : Action}

theorem mem_states_quotientParts :
    u ∈ (S.quotientParts Q).states ↔ ∃ B ∈ Q, u = .ofMembers B := by
  simp only [quotientParts, List.mem_map, eq_comm (a := u)]

theorem ofMembers_mem_states (S : System) (hB : B ∈ Q) :
    State.ofMembers B ∈ (S.quotientParts Q).states :=
  mem_states_quotientParts.mpr ⟨B, hB, rfl⟩

theorem mem_initial_quotientParts :
    u ∈ (S.quotientParts Q).initial ↔ ∃ B ∈ Q, (∃ s ∈ B, s ∈ S.initial) ∧ u = .ofMembers B := by
  simp [quotientParts, isInitial, and_assoc, eq_comm (a := u)]

theorem IsPartition.blockOf?_eq_some_iff (hQ : S.IsPartition Q) :
    Q.blockOf? s = some u ↔ ∃ B ∈ Q, s ∈ B ∧ u = .ofMembers B := by
  unfold Partition.blockOf?
  constructor
  · intro h
    obtain ⟨B, hfind, rfl⟩ := Option.map_eq_some_iff.mp h
    exact ⟨B, List.mem_of_find?_eq_some hfind, by simpa using List.find?_some hfind, rfl⟩
  · rintro ⟨B, hB, hs, rfl⟩
    cases hfind : Q.find? (s ∈ ·) with
    | none =>
      have hnone := List.find?_eq_none.mp hfind B hB
      simp [hs] at hnone
    | some C =>
      have hsC : s ∈ C := by simpa using List.find?_some hfind
      rw [hQ.eq_of_mem (List.mem_of_find?_eq_some hfind) hB hsC hs]
      rfl

theorem IsPartition.mem_blockSuccessors (hQ : S.IsPartition Q) :
    u ∈ S.blockSuccessors Q B a ↔
      ∃ s ∈ B, ∃ t ∈ S.successorsBy s a, ∃ C ∈ Q, t ∈ C ∧ u = .ofMembers C := by
  simp only [blockSuccessors, List.mem_eraseDups, List.mem_flatMap, List.mem_filterMap,
    hQ.blockOf?_eq_some_iff]

/-! ## Labels -/

theorem IsPartition.label_quotientParts (hQ : S.IsPartition Q) (hB : B ∈ Q) :
    (S.quotientParts Q).label (.ofMembers B) = ListSet.union (B.map S.label) := by
  apply Table.getD_ofList_of_mem
  · exact List.mem_map.mpr ⟨B, hB, rfl⟩
  · intro l hl
    obtain ⟨C, hC, h⟩ := List.mem_map.mp hl
    obtain ⟨hblock, rfl⟩ := Prod.mk.inj h
    rw [hQ.eq_of_ofMembers_eq hC hB hblock]

theorem IsPartition.mem_label_quotientParts (hQ : S.IsPartition Q) (hB : B ∈ Q) {p : Proposition} :
    p ∈ (S.quotientParts Q).label (.ofMembers B) ↔ ∃ s ∈ B, p ∈ S.label s := by
  rw [hQ.label_quotientParts hB, ListSet.mem_union]
  constructor
  · rintro ⟨_, hl, hp⟩
    obtain ⟨s, hs, rfl⟩ := List.mem_map.mp hl
    exact ⟨s, hs, hp⟩
  · rintro ⟨s, hs, hp⟩
    exact ⟨S.label s, List.mem_map.mpr ⟨s, hs, rfl⟩, hp⟩

theorem label_quotientParts_of_not_declared (hu : u ∉ (S.quotientParts Q).states) :
    (S.quotientParts Q).label u = [] := by
  apply Table.getD_ofList_of_not_mem
  intro l hl
  obtain ⟨B, hB, h⟩ := List.mem_map.mp hl
  obtain ⟨rfl, _⟩ := Prod.mk.inj h
  exact hu (ofMembers_mem_states S hB)

/-! ## Validity -/

theorem initialViolation?_quotientParts (S : System) (Q : Partition) :
    (S.quotientParts Q).initialViolation? = none := by
  rw [initialViolation?_eq_none_iff]
  intro u hu
  obtain ⟨B, hB, _, rfl⟩ := mem_initial_quotientParts.mp hu
  exact ofMembers_mem_states S hB

theorem IsPartition.moveViolation?_quotientParts (hQ : S.IsPartition Q) :
    (S.quotientParts Q).moveViolation? = none := by
  rw [moveViolation?_eq_none_iff]
  constructor
  · intro u hu
    obtain ⟨_, hkey⟩ := Grid.of_mem_ofCells hu
    obtain ⟨B, hB, h⟩ := List.mem_map.mp hkey
    cases h
    exact ofMembers_mem_states S hB
  · intro u a us hus
    obtain ⟨ha, _, B, _, rfl⟩ := Grid.of_at?_ofCells hus
    refine ⟨ha, ?_⟩
    intro v hv
    obtain ⟨_, _, _, _, C, hC, _, rfl⟩ := hQ.mem_blockSuccessors.mp hv
    exact ofMembers_mem_states S hC

theorem mem_states_of_mem_labels_quotientParts (hu : u ∈ (S.quotientParts Q).labels) :
    u ∈ (S.quotientParts Q).states := by
  obtain ⟨_, hl⟩ := Table.mem_ofList.mp hu
  obtain ⟨B, hB, h⟩ := List.mem_map.mp hl
  cases h
  exact ofMembers_mem_states S hB

/-- Blocks, moves and initial blocks are always in order. -/
theorem IsPartition.violation?_quotientParts (hQ : S.IsPartition Q) :
    (S.quotientParts Q).violation? = (S.quotientParts Q).labelViolation? := by
  rw [violation?, initialViolation?_quotientParts, hQ.moveViolation?_quotientParts, Option.none_or,
    Option.none_or]

theorem IsPartition.valid_quotientParts_iff (hQ : S.IsPartition Q) :
    (S.quotientParts Q).Valid ↔ ∀ s ∈ S.states, ∀ p ∈ S.label s, p ∈ S.propositions := by
  rw [← violation?_eq_none_iff, hQ.violation?_quotientParts, labelViolation?_eq_none_iff,
    and_iff_right fun u hu => mem_states_of_mem_labels_quotientParts hu]
  constructor
  · intro h s hs p hp
    obtain ⟨B, hB, hsB⟩ := hQ.covered s hs
    exact h (.ofMembers B) p ((hQ.mem_label_quotientParts hB).mpr ⟨s, hsB, hp⟩)
  · intro h u p hp
    by_cases hu : u ∈ (S.quotientParts Q).states
    · obtain ⟨B, hB, rfl⟩ := mem_states_quotientParts.mp hu
      obtain ⟨s, hs, hp⟩ := (hQ.mem_label_quotientParts hB).mp hp
      exact h s (hQ.declared B hB s hs) p hp
    · rw [label_quotientParts_of_not_declared hu] at hp
      cases hp

theorem quotient_eq_validate (hQ : S.IsPartition Q) :
    S.quotient Q = (S.quotientParts Q).validate := by
  rw [quotient, partitionViolation?_eq_none_iff.mpr hQ]

theorem quotient_eq_ok (hQ : S.IsPartition Q)
    (hlabel : ∀ s ∈ S.states, ∀ p ∈ S.label s, p ∈ S.propositions) :
    S.quotient Q = .ok (S.quotientParts Q) := by
  rw [quotient_eq_validate hQ]
  exact validate_eq_ok_iff.mpr ⟨hQ.valid_quotientParts_iff.mpr hlabel, rfl⟩

/-- A quotient comes from a partition, and is what its parts make it. -/
theorem of_quotient_eq_ok {q : System} (h : S.quotient Q = .ok q) :
    S.IsPartition Q ∧ (S.quotientParts Q).Valid ∧ q = S.quotientParts Q := by
  cases hQ : S.partitionViolation? Q with
  | some v => simp [quotient, hQ] at h
  | none =>
    have hpartition := partitionViolation?_eq_none_iff.mp hQ
    rw [quotient_eq_validate hpartition] at h
    exact ⟨hpartition, validate_eq_ok_iff.mp h⟩

theorem Valid.quotientParts (hS : S.Valid) (hQ : S.IsPartition Q) : (S.quotientParts Q).Valid :=
  hQ.valid_quotientParts_iff.mpr fun s _ => hS.proposition s

/-! ## Steps -/

theorem IsPartition.mem_successorsBy_quotientParts (hQ : S.IsPartition Q) (hB : B ∈ Q) :
    u ∈ (S.quotientParts Q).successorsBy (.ofMembers B) a ↔
      a ∈ S.actions ∧ ∃ s ∈ B, ∃ t ∈ S.successorsBy s a, ∃ C ∈ Q, t ∈ C ∧ u = .ofMembers C := by
  rw [mem_successorsBy, targets_quotientParts hQ hB]
  split
  · rename_i ha
    simp only [hQ.mem_blockSuccessors, ha, true_and]
  · rename_i ha
    simp [ha]

/-- A block leads to another one just if a state of the one leads to a state of the other. -/
theorem IsPartition.block_mem_successorsBy_iff (hQ : S.IsPartition Q) (hB : B ∈ Q) (hC : C ∈ Q) :
    State.ofMembers C ∈ (S.quotientParts Q).successorsBy (.ofMembers B) a ↔
      a ∈ S.actions ∧ ∃ s ∈ B, ∃ t ∈ C, t ∈ S.successorsBy s a := by
  rw [hQ.mem_successorsBy_quotientParts hB]
  refine and_congr_right fun _ => exists_congr fun s => and_congr_right fun _ => ?_
  constructor
  · rintro ⟨t, hstep, D, hD, ht, heq⟩
    rw [hQ.eq_of_ofMembers_eq hC hD heq]
    exact ⟨t, ht, hstep⟩
  · rintro ⟨t, ht, hstep⟩
    exact ⟨t, hstep, C, hC, ht, rfl⟩

end TransitionSystems.System
