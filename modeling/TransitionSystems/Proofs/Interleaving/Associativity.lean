import TransitionSystems.Proofs.Interleaving.Steps
import TransitionSystems.Proofs.Isomorphism
import TransitionSystems.Proofs.Reachability

/-!
Interleaving is associative. Three systems can be put side by side in two ways, and the states of
either interleaving are triples with other brackets. What is known of the triples decides the steps
of both (`successorsBy_leftTriple` and `successorsBy_rightTriple`), so that the two interleavings
differ in the brackets alone (`interleave_assoc`).
-/
namespace TransitionSystems

namespace State

def leftTriple (x : State × State × State) : State := .product (.product x.1 x.2.1) x.2.2

def rightTriple (x : State × State × State) : State := .product x.1 (.product x.2.1 x.2.2)

/-- Moves the brackets of a triple to the right. -/
def rebracket : State → State
  | product (product s t) u => product s (product t u)
  | s => s

theorem rebracket_leftTriple (x : State × State × State) :
    (leftTriple x).rebracket = rightTriple x := rfl

theorem map_rebracket_leftTriple (xs : List (State × State × State)) :
    (xs.map leftTriple).map rebracket = xs.map rightTriple := by
  simp only [List.map_map, Function.comp_def, rebracket_leftTriple]

theorem eq_of_leftTriple_eq (x y : State × State × State) (h : leftTriple x = leftTriple y) :
    x = y := by
  obtain ⟨s, t, u⟩ := x
  cases h
  rfl

theorem eq_of_rightTriple_eq (x y : State × State × State) (h : rightTriple x = rightTriple y) :
    x = y := by
  obtain ⟨s, t, u⟩ := x
  cases h
  rfl

/-- Pairs with a pair on the left are the triples with brackets on the left. -/
theorem map_product_pairs_left (xs ys zs : List State) :
    ((ListSet.pairs ((ListSet.pairs xs ys).map fun (s, t) => product s t) zs).map
        fun (s, t) => product s t) =
      (ListSet.pairs xs (ListSet.pairs ys zs)).map leftTriple := by
  have hpairs := ListSet.pairs_map (fun (s, t) => product s t) id (ListSet.pairs xs ys) zs
  rw [List.map_id] at hpairs
  rw [hpairs, ListSet.pairs_assoc, List.map_map, List.map_map]
  rfl

theorem map_product_pairs_right (xs ys zs : List State) :
    ((ListSet.pairs xs ((ListSet.pairs ys zs).map fun (s, t) => product s t)).map
        fun (s, t) => product s t) =
      (ListSet.pairs xs (ListSet.pairs ys zs)).map rightTriple := by
  have hpairs := ListSet.pairs_map id (fun (s, t) => product s t) xs (ListSet.pairs ys zs)
  rw [List.map_id] at hpairs
  rw [hpairs, List.map_map]
  rfl

end State

namespace System

variable {A B C : System} {s t u : State}

/-- Where one of three systems can move while the others rest. Moves of the first come first. -/
def tripleSuccessors (A B C : System) (x : State × State × State) (a : Action) :
    List (State × State × State) :=
  ((A.successorsBy x.1 a).map (fun s => (s, x.2.1, x.2.2)) ++
    (B.successorsBy x.2.1 a).map (fun t => (x.1, t, x.2.2)) ++
    (C.successorsBy x.2.2 a).map (fun u => (x.1, x.2.1, u))).eraseDups

/-! ## Brackets on the left -/

theorem successorsBy_leftTriple (hA : A.Valid) (hB : B.Valid) (hC : C.Valid) (hs : s ∈ A.states)
    (ht : t ∈ B.states) (hu : u ∈ C.states) (a : Action) :
    ((A.interleavingParts B).interleavingParts C).successorsBy (.leftTriple (s, t, u)) a =
      (A.tripleSuccessors B C (s, t, u) a).map .leftTriple := by
  have hst := product_mem_states_interleavingParts.mpr ⟨hs, ht⟩
  have hleft (x y : State) (h : State.product x u = .product y u) : x = y := by
    cases h
    rfl
  rw [State.leftTriple, successorsBy_interleavingParts (hA.interleavingParts hB) hC hst hu,
    successorsBy_interleavingParts hA hB hs ht, ← ListSet.eraseDups_map hleft,
    ListSet.eraseDups_eraseDups_append, tripleSuccessors,
    ← ListSet.eraseDups_map State.eq_of_leftTriple_eq]
  simp only [List.map_append, List.map_map]
  rfl

theorem label_leftTriple (hs : s ∈ A.states) (ht : t ∈ B.states) (hu : u ∈ C.states) :
    ((A.interleavingParts B).interleavingParts C).label (.leftTriple (s, t, u)) =
      A.label s ++ B.label t ++ C.label u := by
  have hst := product_mem_states_interleavingParts.mpr ⟨hs, ht⟩
  rw [State.leftTriple, label_interleavingParts hst hu, label_interleavingParts hs ht]

/-! ## Brackets on the right -/

theorem successorsBy_rightTriple (hA : A.Valid) (hB : B.Valid) (hC : C.Valid) (hs : s ∈ A.states)
    (ht : t ∈ B.states) (hu : u ∈ C.states) (a : Action) :
    (A.interleavingParts (B.interleavingParts C)).successorsBy (.rightTriple (s, t, u)) a =
      (A.tripleSuccessors B C (s, t, u) a).map .rightTriple := by
  have htu := product_mem_states_interleavingParts.mpr ⟨ht, hu⟩
  have hright (x y : State) (h : State.product s x = .product s y) : x = y := by
    cases h
    rfl
  rw [State.rightTriple, successorsBy_interleavingParts hA (hB.interleavingParts hC) hs htu,
    successorsBy_interleavingParts hB hC ht hu, ← ListSet.eraseDups_map hright,
    ListSet.eraseDups_append_eraseDups, tripleSuccessors,
    ← ListSet.eraseDups_map State.eq_of_rightTriple_eq]
  simp only [List.map_append, List.map_map, List.append_assoc]
  rfl

theorem label_rightTriple (hs : s ∈ A.states) (ht : t ∈ B.states) (hu : u ∈ C.states) :
    (A.interleavingParts (B.interleavingParts C)).label (.rightTriple (s, t, u)) =
      A.label s ++ B.label t ++ C.label u := by
  have htu := product_mem_states_interleavingParts.mpr ⟨ht, hu⟩
  rw [State.rightTriple, label_interleavingParts hs htu, label_interleavingParts ht hu,
    List.append_assoc]

/-! ## Either way -/

theorem mem_states_leftTriple {x : State}
    (hx : x ∈ ((A.interleavingParts B).interleavingParts C).states) :
    ∃ s ∈ A.states, ∃ t ∈ B.states, ∃ u ∈ C.states, x = .leftTriple (s, t, u) := by
  obtain ⟨_, hst, u, hu, rfl⟩ := mem_states_interleavingParts.mp hx
  obtain ⟨s, hs, t, ht, rfl⟩ := mem_states_interleavingParts.mp hst
  exact ⟨s, hs, t, ht, u, hu, rfl⟩

theorem renamedBy_rebracket (hA : A.Valid) (hB : B.Valid) (hC : C.Valid) :
    RenamedBy State.rebracket ((A.interleavingParts B).interleavingParts C)
      (A.interleavingParts (B.interleavingParts C)) where
  states := by
    simp only [interleavingParts]
    rw [State.map_product_pairs_left, State.map_product_pairs_right,
      State.map_rebracket_leftTriple]
  actions := (ListSet.union_assoc A.actions B.actions C.actions).symm
  initial := by
    simp only [interleavingParts]
    rw [State.map_product_pairs_left, State.map_product_pairs_right,
      State.map_rebracket_leftTriple]
  propositions := (List.append_assoc A.propositions B.propositions C.propositions).symm
  steps := by
    intro x hx a
    obtain ⟨s, hs, t, ht, u, hu, rfl⟩ := mem_states_leftTriple hx
    rw [State.rebracket_leftTriple, successorsBy_rightTriple hA hB hC hs ht hu,
      successorsBy_leftTriple hA hB hC hs ht hu, State.map_rebracket_leftTriple]
  labels := by
    intro x hx
    obtain ⟨s, hs, t, ht, u, hu, rfl⟩ := mem_states_leftTriple hx
    rw [State.rebracket_leftTriple, label_rightTriple hs ht hu, label_leftTriple hs ht hu]

/-- **Interleaving is associative.** The brackets of the states are all that changes. -/
theorem interleave_assoc (hA : A.Valid) (hB : B.Valid) (hC : C.Valid) :
    ∃ AB BC L R, A.interleave B = .ok AB ∧ B.interleave C = .ok BC ∧ AB.interleave C = .ok L ∧
      A.interleave BC = .ok R ∧
      (∀ s t u, State.rebracket (.product (.product s t) u) = .product s (.product t u)) ∧
      RenamedBy State.rebracket L R := by
  have hAB := hA.interleavingParts hB
  have hBC := hB.interleavingParts hC
  exact ⟨_, _, _, _, interleave_eq_ok hA hB, interleave_eq_ok hB hC, interleave_eq_ok hAB hC,
    interleave_eq_ok hA hBC, fun _ _ _ => rfl, renamedBy_rebracket hA hB hC⟩

/-- All three systems have a loop by the same action, and the middle one has no other step from its
initial state. Each interleaving steps from the initial triple to the triple itself, and to where
the first or the last system moves on. -/
theorem interleave_assoc_looseCycle :
    Catalogue.simpleChain.Valid ∧ looseCycle.Valid ∧
      ∃ AB BC L R, Catalogue.simpleChain.interleave looseCycle = .ok AB ∧
        looseCycle.interleave Catalogue.simpleChain = .ok BC ∧
        AB.interleave Catalogue.simpleChain = .ok L ∧
        Catalogue.simpleChain.interleave BC = .ok R ∧
        L.successorsBy (.leftTriple (.named "1", .named "1", .named "1")) ⟨"a"⟩ =
          [.leftTriple (.named "1", .named "1", .named "1"),
            .leftTriple (.named "2", .named "1", .named "1"),
            .leftTriple (.named "1", .named "1", .named "2")] ∧
        R.successorsBy (.rightTriple (.named "1", .named "1", .named "1")) ⟨"a"⟩ =
          [.rightTriple (.named "1", .named "1", .named "1"),
            .rightTriple (.named "2", .named "1", .named "1"),
            .rightTriple (.named "1", .named "1", .named "2")] := by
  have hA : Catalogue.simpleChain.Valid := by decide
  have hB : looseCycle.Valid := by decide
  obtain ⟨AB, BC, L, R, hAB, hBC, hL, hR, _, hrenamed⟩ := interleave_assoc hA hB hA
  obtain rfl : _ = AB := Except.ok.inj ((interleave_eq_ok hA hB).symm.trans hAB)
  obtain rfl : _ = L :=
    Except.ok.inj ((interleave_eq_ok (hA.interleavingParts hB) hA).symm.trans hL)
  have hmoves : ((Catalogue.simpleChain.interleavingParts looseCycle).interleavingParts
      Catalogue.simpleChain).successorsBy (.leftTriple (.named "1", .named "1", .named "1")) ⟨"a"⟩ =
        [.leftTriple (.named "1", .named "1", .named "1"),
          .leftTriple (.named "2", .named "1", .named "1"),
          .leftTriple (.named "1", .named "1", .named "2")] := by
    rw [successorsBy_leftTriple hA hB hA (by decide) (by decide) (by decide)]
    decide
  have hsteps := hrenamed.steps (.leftTriple (.named "1", .named "1", .named "1")) (by decide) ⟨"a"⟩
  rw [hmoves] at hsteps
  exact ⟨hA, hB, _, BC, _, R, hAB, hBC, hL, hR, hmoves, hsteps⟩

end System
end TransitionSystems
