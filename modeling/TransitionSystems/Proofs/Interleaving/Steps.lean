import TransitionSystems.Interleaving
import TransitionSystems.Proofs.Steps

/-!
Interleavings of valid systems. Two valid systems always have an interleaving, which is valid
(`interleave_eq_ok`), and a step of it is a step of one side while the other side stays where it is
(`mem_successorsBy_interleavingParts`).
-/
namespace TransitionSystems

theorem State.product_mem_map_pairs {ss ts : List State} {s t : State} :
    product s t ∈ ((ListSet.pairs ss ts).map fun (s, t) => product s t) ↔ s ∈ ss ∧ t ∈ ts := by
  rw [ListSet.mem_map_pairs]
  constructor
  · rintro ⟨s', hs, t', ht, heq⟩
    cases heq
    exact ⟨hs, ht⟩
  · rintro ⟨hs, ht⟩
    exact ⟨s, hs, t, ht, rfl⟩

namespace System

variable {S T : System} {s t u : State} {a : Action}

theorem mem_states_interleavingParts :
    u ∈ (S.interleavingParts T).states ↔ ∃ s ∈ S.states, ∃ t ∈ T.states, u = .product s t :=
  ListSet.mem_map_pairs

theorem mem_initial_interleavingParts :
    u ∈ (S.interleavingParts T).initial ↔ ∃ s ∈ S.initial, ∃ t ∈ T.initial, u = .product s t :=
  ListSet.mem_map_pairs

theorem product_mem_states_interleavingParts :
    .product s t ∈ (S.interleavingParts T).states ↔ s ∈ S.states ∧ t ∈ T.states :=
  State.product_mem_map_pairs

theorem product_mem_initial_interleavingParts :
    .product s t ∈ (S.interleavingParts T).initial ↔ s ∈ S.initial ∧ t ∈ T.initial :=
  State.product_mem_map_pairs

theorem mem_actions_interleavingParts :
    a ∈ (S.interleavingParts T).actions ↔ a ∈ S.actions ∨ a ∈ T.actions := by
  simp [interleavingParts, ListSet.mem_union]

theorem mem_pairSuccessors :
    u ∈ S.pairSuccessors T (s, t) a ↔
      (a ∈ S.actions ∧ ∃ s' ∈ S.successorsBy s a, u = .product s' t) ∨
        (a ∈ T.actions ∧ ∃ t' ∈ T.successorsBy t a, u = .product s t') := by
  simp only [pairSuccessors, List.mem_eraseDups, List.mem_append, List.mem_map, eq_comm (a := u)]
  by_cases hS : a ∈ S.actions
  · by_cases hT : a ∈ T.actions
    · simp [hS, hT]
    · simp [hS, hT]
  · by_cases hT : a ∈ T.actions
    · simp [hS, hT]
    · simp [hS, hT]

/-! ## Labels -/

theorem label_interleavingParts (hs : s ∈ S.states) (ht : t ∈ T.states) :
    (S.interleavingParts T).label (.product s t) = S.label s ++ T.label t := by
  apply Table.getD_ofList_of_mem
  · exact List.mem_map.mpr ⟨(s, t), ListSet.mem_pairs.mpr ⟨hs, ht⟩, rfl⟩
  · intro l hl
    obtain ⟨⟨s', t'⟩, _, h⟩ := List.mem_map.mp hl
    cases h
    rfl

theorem label_interleavingParts_of_not_declared (hu : u ∉ (S.interleavingParts T).states) :
    (S.interleavingParts T).label u = [] := by
  apply Table.getD_ofList_of_not_mem
  intro l hl
  obtain ⟨⟨s, t⟩, hp, h⟩ := List.mem_map.mp hl
  cases h
  exact hu (product_mem_states_interleavingParts.mpr (ListSet.mem_pairs.mp hp))

/-! ## Validity -/

theorem Valid.interleavingParts (hS : S.Valid) (hT : T.Valid) : (S.interleavingParts T).Valid where
  initial := by
    intro u hu
    obtain ⟨s, hs, t, ht, rfl⟩ := mem_initial_interleavingParts.mp hu
    exact product_mem_states_interleavingParts.mpr ⟨hS.initial s hs, hT.initial t ht⟩
  source := by
    intro u hu
    obtain ⟨_, hkey⟩ := Grid.of_mem_ofCells hu
    obtain ⟨⟨s, t⟩, hp, h⟩ := List.mem_map.mp hkey
    cases h
    exact List.mem_map.mpr ⟨(s, t), hp, rfl⟩
  action := by
    intro u a ts hts
    exact (Grid.of_at?_ofCells hts).1
  target := by
    intro u a v hv
    obtain ⟨ts, hts, hv⟩ := at?_of_mem_targets hv
    obtain ⟨_, _, _, hkey, rfl⟩ := Grid.of_at?_ofCells hts
    obtain ⟨⟨s, t⟩, hp, h⟩ := List.mem_map.mp hkey
    cases h
    obtain ⟨hs, ht⟩ := ListSet.mem_pairs.mp hp
    rcases mem_pairSuccessors.mp hv with ⟨_, s', hs', rfl⟩ | ⟨_, t', ht', rfl⟩
    · exact product_mem_states_interleavingParts.mpr ⟨hS.target_of_step hs', ht⟩
    · exact product_mem_states_interleavingParts.mpr ⟨hs, hT.target_of_step ht'⟩
  labelled := by
    intro u hu
    obtain ⟨_, hl⟩ := Table.mem_ofList.mp hu
    obtain ⟨⟨s, t⟩, hp, h⟩ := List.mem_map.mp hl
    cases h
    exact List.mem_map.mpr ⟨(s, t), hp, rfl⟩
  proposition := by
    intro u p hp
    by_cases hu : u ∈ (S.interleavingParts T).states
    · obtain ⟨s, hs, t, ht, rfl⟩ := mem_states_interleavingParts.mp hu
      rw [label_interleavingParts hs ht] at hp
      rcases List.mem_append.mp hp with hp | hp
      · exact List.mem_append_left _ (hS.proposition s p hp)
      · exact List.mem_append_right _ (hT.proposition t p hp)
    · rw [label_interleavingParts_of_not_declared hu] at hp
      cases hp

theorem interleave_eq_ok (hS : S.Valid) (hT : T.Valid) :
    S.interleave T = .ok (S.interleavingParts T) := by
  have hparts := violation?_eq_none_iff.mpr (hS.interleavingParts hT)
  rw [interleave, violation?_eq_none_iff.mpr hS, violation?_eq_none_iff.mpr hT]
  simp only [validate, hparts]
  rfl

/-! ## Steps -/

theorem nodup_targets_interleavingParts (u : State) (a : Action) :
    ((S.interleavingParts T).targets u a).Nodup := by
  by_cases hu : u ∈ (S.interleavingParts T).states
  · obtain ⟨s, hs, t, ht, rfl⟩ := mem_states_interleavingParts.mp hu
    rw [targets_interleavingParts hs ht]
    exact ListSet.nodup_eraseDups _
  · rw [targets_interleavingParts_of_not_pair]
    · exact .nil
    · rintro s hs t ht rfl
      exact hu (product_mem_states_interleavingParts.mpr ⟨hs, ht⟩)

/-- Moves of the left side come first, and of two equal targets the later one is dropped. -/
theorem successorsBy_interleavingParts (hS : S.Valid) (hT : T.Valid) (hs : s ∈ S.states)
    (ht : t ∈ T.states) (a : Action) :
    (S.interleavingParts T).successorsBy (.product s t) a =
      ((S.successorsBy s a).map (State.product · t) ++
        (T.successorsBy t a).map (State.product s)).eraseDups := by
  rw [successorsBy, targets_interleavingParts hs ht, pairSuccessors]
  simp only [hS.successorsBy_of_declared, hT.successorsBy_of_declared]
  exact ListSet.eraseDups_of_nodup (ListSet.nodup_eraseDups _)

theorem mem_successorsBy_interleavingParts (hS : S.Valid) (hT : T.Valid) (hs : s ∈ S.states)
    (ht : t ∈ T.states) :
    u ∈ (S.interleavingParts T).successorsBy (.product s t) a ↔
      (∃ s' ∈ S.successorsBy s a, u = .product s' t) ∨
        ∃ t' ∈ T.successorsBy t a, u = .product s t' := by
  rw [successorsBy_interleavingParts hS hT hs ht]
  simp only [List.mem_eraseDups, List.mem_append, List.mem_map, eq_comm (a := u)]

theorem mem_successors_interleavingParts (hS : S.Valid) (hT : T.Valid) (hs : s ∈ S.states)
    (ht : t ∈ T.states) :
    u ∈ (S.interleavingParts T).successors (.product s t) ↔
      (∃ s' ∈ S.successors s, u = .product s' t) ∨ ∃ t' ∈ T.successors t, u = .product s t' := by
  simp only [(hS.interleavingParts hT).mem_successors_iff, hS.mem_successors_iff,
    hT.mem_successors_iff, mem_successorsBy_interleavingParts hS hT hs ht]
  constructor
  · rintro ⟨a, ⟨s', hs', hu⟩ | ⟨t', ht', hu⟩⟩
    · exact Or.inl ⟨s', ⟨a, hs'⟩, hu⟩
    · exact Or.inr ⟨t', ⟨a, ht'⟩, hu⟩
  · rintro (⟨s', ⟨a, hs'⟩, hu⟩ | ⟨t', ⟨a, ht'⟩, hu⟩)
    · exact ⟨a, Or.inl ⟨s', hs', hu⟩⟩
    · exact ⟨a, Or.inr ⟨t', ht', hu⟩⟩

end System
end TransitionSystems
