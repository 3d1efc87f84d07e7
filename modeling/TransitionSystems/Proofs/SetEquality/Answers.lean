import TransitionSystems.Proofs.Reachability
import TransitionSystems.System.Classes

/-!
Systems that are equal as sets. Two valid systems may list the same states, actions, propositions,
initial states and moves in different orders and with different repeats, one of them may store empty
lists of targets where the other stores nothing, and their labels need only agree. It is enough to
compare the moves and labels of declared states (`setEqual_iff`), and all queries have the same
answers (`SetEqual.sameAnswers`).
-/
namespace TransitionSystems.System

/-- The two systems are valid and describe the same tuple of sets. -/
structure SetEqual (S T : System) : Prop where
  left : S.Valid
  right : T.Valid
  states : ∀ s, s ∈ S.states ↔ s ∈ T.states
  actions : ∀ a, a ∈ S.actions ↔ a ∈ T.actions
  initial : ∀ s, s ∈ S.initial ↔ s ∈ T.initial
  propositions : ∀ p, p ∈ S.propositions ↔ p ∈ T.propositions
  moves : ∀ s a t, t ∈ S.targets s a ↔ t ∈ T.targets s a
  labels : ∀ s, (S.label s).agrees (T.label s) = true

/-- All queries have the same answers, where a list is an answer only up to order and repeats. -/
structure SameAnswers (S T : System) : Prop where
  isInitial : ∀ s, S.isInitial s = T.isInitial s
  satisfies : ∀ s p, S.satisfies s p = T.satisfies s p
  successorsBy : ∀ s a, ListSet.isSame (S.successorsBy s a) (T.successorsBy s a) = true
  successors : ∀ s, ListSet.isSame (S.successors s) (T.successors s) = true
  predecessorsBy : ∀ s a, ListSet.isSame (S.predecessorsBy s a) (T.predecessorsBy s a) = true
  predecessors : ∀ s, ListSet.isSame (S.predecessors s) (T.predecessors s) = true
  isTerminal : ∀ s, S.isTerminal s = T.isTerminal s
  isReachable : ∀ s, S.isReachable s = T.isReachable s
  reachableStates : ListSet.isSame S.reachableStates T.reachableStates = true
  isNonBlocking : S.isNonBlocking = T.isNonBlocking

variable {S T : System} {s t : State} {a : Action} {p : Proposition}

/-! ## Undeclared states -/

theorem Valid.targets_eq_nil (hS : S.Valid) (h : ¬(s ∈ S.states ∧ a ∈ S.actions)) :
    S.targets s a = [] := by
  rw [List.eq_nil_iff_forall_not_mem]
  intro t ht
  have ht := mem_successorsBy.mpr ht
  exact h ⟨hS.source_of_step ht, hS.action_of_step ht⟩

theorem Valid.label_eq_nil (hS : S.Valid) (hs : s ∉ S.states) : S.label s = [] :=
  Std.ExtTreeMap.getD_eq_fallback fun hmem => hs (hS.labelled s hmem)

/-- Set equality can be decided, since neither system has moves or labels outside its declared
states. -/
theorem setEqual_iff :
    SetEqual S T ↔ S.Valid ∧ T.Valid ∧ ListSet.isSame S.states T.states = true ∧
      ListSet.isSame S.actions T.actions = true ∧ ListSet.isSame S.initial T.initial = true ∧
      ListSet.isSame S.propositions T.propositions = true ∧
      (∀ s ∈ S.states, ∀ a ∈ S.actions,
        ListSet.isSame (S.targets s a) (T.targets s a) = true) ∧
      ∀ s ∈ S.states, (S.label s).agrees (T.label s) = true := by
  simp only [ListSet.isSame_iff]
  constructor
  · intro h
    exact ⟨h.left, h.right, h.states, h.actions, h.initial, h.propositions,
      fun s _ a _ => h.moves s a, fun s _ => h.labels s⟩
  · rintro ⟨hS, hT, hstates, hactions, hinitial, hpropositions, hmoves, hlabels⟩
    refine ⟨hS, hT, hstates, hactions, hinitial, hpropositions, ?_, ?_⟩
    · intro s a t
      by_cases h : s ∈ S.states ∧ a ∈ S.actions
      · exact hmoves s h.1 a h.2 t
      · have h' : ¬(s ∈ T.states ∧ a ∈ T.actions) := by rwa [← hstates, ← hactions]
        rw [hS.targets_eq_nil h, hT.targets_eq_nil h']
    · intro s
      by_cases hs : s ∈ S.states
      · exact hlabels s hs
      · rw [hS.label_eq_nil hs, hT.label_eq_nil fun hs' => hs ((hstates s).mpr hs')]
        rfl

instance (S T : System) : Decidable (SetEqual S T) := decidable_of_iff _ setEqual_iff.symm

theorem SetEqual.symm (h : SetEqual S T) : SetEqual T S where
  left := h.right
  right := h.left
  states := fun s => (h.states s).symm
  actions := fun a => (h.actions a).symm
  initial := fun s => (h.initial s).symm
  propositions := fun p => (h.propositions p).symm
  moves := fun s a t => (h.moves s a t).symm
  labels := fun s => Label.agrees_symm (h.labels s)

/-! ## Queries -/

theorem SetEqual.mem_label_iff (h : SetEqual S T) : p ∈ S.label s ↔ p ∈ T.label s :=
  Label.agrees_iff.mp (h.labels s) p

theorem SetEqual.mem_successorsBy_iff (h : SetEqual S T) :
    t ∈ S.successorsBy s a ↔ t ∈ T.successorsBy s a := by
  simp only [mem_successorsBy, h.moves]

theorem SetEqual.mem_successors_iff (h : SetEqual S T) :
    t ∈ S.successors s ↔ t ∈ T.successors s := by
  simp only [mem_successors, h.actions, h.mem_successorsBy_iff]

theorem SetEqual.mem_predecessorsBy_iff (h : SetEqual S T) :
    s ∈ S.predecessorsBy t a ↔ s ∈ T.predecessorsBy t a := by
  simp only [mem_predecessorsBy, h.states, h.moves]

theorem SetEqual.mem_predecessors_iff (h : SetEqual S T) :
    s ∈ S.predecessors t ↔ s ∈ T.predecessors t := by
  simp only [mem_predecessors, h.actions, h.mem_predecessorsBy_iff]

theorem SetEqual.reachable (h : SetEqual S T) (hs : S.Reachable s) : T.Reachable s :=
  hs.induction (fun s hs => .initial ((h.initial s).mp hs))
    fun _ hreach _ ht => hreach.step (h.mem_successors_iff.mp ht)

theorem SetEqual.reachable_iff (h : SetEqual S T) : S.Reachable s ↔ T.Reachable s :=
  ⟨h.reachable, h.symm.reachable⟩

theorem SetEqual.sameAnswers (h : SetEqual S T) : SameAnswers S T where
  isInitial := by
    intro s
    simp only [isInitial, h.initial]
  satisfies := by
    intro s p
    simp only [satisfies, h.mem_label_iff]
  successorsBy := fun _ _ => ListSet.isSame_iff.mpr fun _ => h.mem_successorsBy_iff
  successors := fun _ => ListSet.isSame_iff.mpr fun _ => h.mem_successors_iff
  predecessorsBy := fun _ _ => ListSet.isSame_iff.mpr fun _ => h.mem_predecessorsBy_iff
  predecessors := fun _ => ListSet.isSame_iff.mpr fun _ => h.mem_predecessors_iff
  isTerminal := by
    intro s
    rw [Bool.eq_iff_iff, isTerminal_iff, isTerminal_iff]
    simp only [h.mem_successors_iff]
  isReachable := by
    intro s
    rw [Bool.eq_iff_iff, isReachable_iff h.left, isReachable_iff h.right, h.reachable_iff]
  reachableStates := by
    rw [ListSet.isSame_iff]
    intro s
    rw [mem_reachableStates, mem_reachableStates, h.reachable_iff]
  isNonBlocking := by
    rw [Bool.eq_iff_iff, isNonBlocking_iff, isNonBlocking_iff]
    simp only [h.states, h.actions, h.mem_successorsBy_iff]

end TransitionSystems.System
