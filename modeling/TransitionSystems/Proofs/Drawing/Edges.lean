import TransitionSystems.Proofs.Drawing.Picture

/-!
How often a step is drawn. If no state is declared twice, each state has one node, and the edges are
the stored moves one after the other (`edges_picture`). So a step is drawn as often as its target is
stored, and once just if the stored lists have no repeats (`edges_show_stored_moves`); a single
repeat is a second edge (`edges_repeat_stored_moves`).
-/
namespace TransitionSystems.System

/-- The edge for a move between declared states. -/
def edgeOf (S : System) (move : State × Action × State) : Nat × Nat × String :=
  (S.states.idxOf move.1, S.states.idxOf move.2.2, move.2.1.text)

variable {S : System} {s t : State} {a : Action}

theorem node?_eq_some_idxOf (hnodup : S.states.Nodup) (hs : s ∈ S.states) :
    S.node? s = some (S.states.idxOf s) := by
  obtain ⟨i, hi, hget⟩ := exists_node? hs
  obtain ⟨hlt, rfl⟩ := List.getElem?_eq_some_iff.mp hget
  rw [hi, hnodup.idxOf_getElem]

/-- Every stored move of a valid system is drawn. -/
theorem edges_picture (hS : S.Valid) (hnodup : S.states.Nodup) :
    S.picture.edges = S.storedMoves.map S.edgeOf := by
  change S.storedMoves.filterMap S.drawnEdge? = _
  rw [← List.filterMap_eq_map]
  refine List.filterMap_congr ?_
  rintro ⟨s, a, t⟩ hmove
  have hstep := mem_successorsBy.mpr (mem_storedMoves.mp hmove)
  rw [drawnEdge?, node?_eq_some_idxOf hnodup (hS.source_of_step hstep),
    node?_eq_some_idxOf hnodup (hS.target_of_step hstep)]
  rfl

/-- An edge shows the text of its action, which may be that of two actions. -/
theorem count_edges_picture (hS : S.Valid) (hnodup : S.states.Nodup) (hs : s ∈ S.states)
    (ht : t ∈ S.states) (htext : ∀ b ∈ S.actions, b.text = a.text → b = a) :
    S.picture.edges.count (S.edgeOf (s, a, t)) = (S.targets s a).count t := by
  rw [edges_picture hS hnodup, ← count_storedMoves, List.count, List.countP_map, List.count]
  refine List.countP_congr ?_
  rintro ⟨s', b, t'⟩ hmove
  have hstep := mem_successorsBy.mpr (mem_storedMoves.mp hmove)
  simp only [Function.comp_apply, beq_iff_eq, edgeOf, Prod.mk.injEq]
  constructor
  · rintro ⟨hsource, htarget, hlabel⟩
    exact ⟨(List.idxOf_inj (hS.source_of_step hstep)).mp hsource,
      htext b (hS.action_of_step hstep) hlabel,
      (List.idxOf_inj (hS.target_of_step hstep)).mp htarget⟩
  · rintro ⟨rfl, rfl, rfl⟩
    exact ⟨rfl, rfl, rfl⟩

/-- **Edges of a drawing.** A step has as many edges as its target is stored, and there are as many
edges as steps just if no target is stored twice. -/
theorem edges_show_stored_moves (hS : S.Valid) (hnodup : S.states.Nodup) :
    ∃ P : Picture, Dot.read (S.dotText .plain) = some P.statements ∧
      P.edges = S.storedMoves.map S.edgeOf ∧
      (∀ s a t, S.storedMoves.count (s, a, t) = (S.targets s a).count t) ∧
      (∀ s a t, (s, a, t) ∈ S.storedMoves ↔ t ∈ S.successorsBy s a) ∧
      (∀ s ∈ S.states, ∀ t ∈ S.states, ∀ a, (∀ b ∈ S.actions, b.text = a.text → b = a) →
        P.edges.count (S.edgeOf (s, a, t)) = (S.targets s a).count t) ∧
      P.edges.length = S.moveCount ∧
      (P.edges.length = S.steps.ncard ↔ ∀ s a, (S.targets s a).Nodup) := by
  have hedges := edges_picture hS hnodup
  have hlength : S.picture.edges.length = S.moveCount := by
    rw [hedges, List.length_map, length_storedMoves]
  refine ⟨S.picture, read_dotText S, hedges, count_storedMoves S, fun s a t => ?_,
    fun s hs t ht a htext => count_edges_picture hS hnodup hs ht htext, hlength, ?_⟩
  · rw [mem_storedMoves, mem_successorsBy]
  · rw [hlength]
    exact moveCount_eq_ncard_steps_iff

/-- By `a` it stores one target twice. -/
def twofold : System :=
  .ofEntries (State.ofNames ["1", "2"]) [⟨"a"⟩, .silent]
    [(.named "1", [(⟨"a"⟩, State.ofNames ["2", "1", "2"]), (.silent, State.ofNames ["2"])])]
    (State.ofNames ["1"]) [] []

/-- The silent step is drawn once and one of the two others twice. -/
theorem edges_show_stored_moves_twofold :
    twofold.Valid ∧ twofold.states.Nodup ∧
      ∃ P : Picture, Dot.read (twofold.dotText .plain) = some P.statements ∧
        P.edges = [(0, 1, "ε"), (0, 1, "a"), (0, 0, "a"), (0, 1, "a")] ∧
        P.edges.count (0, 1, "a") = 2 ∧ P.edges.count (0, 1, "ε") = 1 ∧
        P.edges.length = twofold.moveCount ∧ P.edges.length ≠ twofold.steps.ncard := by
  have hvalid : twofold.Valid := by decide
  have hnodup : twofold.states.Nodup := by decide
  obtain ⟨P, hread, hedges, _, _, hcount, hlength, hsteps⟩ := edges_show_stored_moves hvalid hnodup
  have htwice := hcount (.named "1") (by decide) (.named "2") (by decide) ⟨"a"⟩ (by decide)
  have hsilent := hcount (.named "1") (by decide) (.named "2") (by decide) .silent (by decide)
  refine ⟨hvalid, hnodup, P, hread, hedges.trans (by decide), htwice.trans (by decide),
    hsilent.trans (by decide), hlength, fun heq => ?_⟩
  exact absurd (hsteps.mp heq (.named "1") ⟨"a"⟩) (by decide)

/-- One state with one step to itself, whose target is stored twice. -/
def repeatedTarget : System :=
  .ofEntries (State.ofNames ["1"]) [⟨"a"⟩] [(.named "1", [(⟨"a"⟩, State.ofNames ["1", "1"])])]
    (State.ofNames ["1"]) [] []

/-- There is one step, but two lines are written for it. -/
theorem edges_repeat_stored_moves :
    repeatedTarget.Valid ∧ repeatedTarget.states.Nodup ∧
      repeatedTarget.successorsBy (.named "1") ⟨"a"⟩ = State.ofNames ["1"] ∧
      repeatedTarget.dotText .plain =
        "digraph \x7b\nrankdir=LR;\nnode [shape=circle];\n" ++
          "s0 [shape=doublecircle, label=\"1\\n\x7b\x7d\"];\n" ++
          "init0 [shape=point, label=\"\"];\ninit0 -> s0;\n" ++
          "s0 -> s0 [label=\"a\", style=solid];\n" ++
          "s0 -> s0 [label=\"a\", style=solid];\n\x7d\n" := by
  refine ⟨by decide, by decide, by decide, ?_⟩
  rfl

end TransitionSystems.System
