import Mathlib.Data.List.Forall2
import TransitionSystems.Proofs.Drawing.Reading
import TransitionSystems.Proofs.StoredMoves
import TransitionSystems.System.Drawing

/-!
What the drawing of a system shows. From the text of a drawing its picture can be read, whatever
characters the names hold (`read_dotText`): the text and the kind of each state, the states at which
runs start, and the stored moves. A state that is declared repeatedly has several nodes, and arrows
lead to one of them. The picture shows the system as it is, valid or not, and systems with one text
have one picture (`dotText_shows`).
-/
namespace TransitionSystems

/-- What a filter keeps is what a partial map is defined on, element by element. -/
theorem forall₂_filter_filterMap {α β : Type} {R : α → β → Prop} {p : α → Bool} {f : α → Option β}
    (hkept : ∀ x, p x = true → ∃ y, f x = some y ∧ R x y) (hdropped : ∀ x, p x = false → f x = none)
    (xs : List α) : List.Forall₂ R (xs.filter p) (xs.filterMap f) := by
  induction xs with
  | nil => exact .nil
  | cons x xs ih =>
    cases hx : p x with
    | true =>
      obtain ⟨y, hy, hxy⟩ := hkept x hx
      rw [List.filter_cons_of_pos hx, List.filterMap_cons_some hy]
      exact .cons hxy ih
    | false =>
      rw [List.filter_cons_of_neg (by simp [hx]), List.filterMap_cons_none (hdropped x hx)]
      exact ih

structure Picture where
  /-- The text under each node, and whether the state is initial. -/
  nodes : List (String × Bool)
  /-- The number of each entry, and that of the node it leads to. -/
  entries : List (Nat × Nat)
  edges : List (Nat × Nat × String)
deriving DecidableEq

namespace Picture

def nodeStatement : (String × Bool) × Nat → Dot.Statement
  | ((text, initial), i) => .node i (if initial then some "doublecircle" else none) [text]

def entryStatements : Nat × Nat → List Dot.Statement
  | (k, i) => [.entryPoint k, .entryArrow k i]

def edgeStatement : Nat × Nat × String → Dot.Statement
  | (i, j, text) => .edge i j text "solid"

/-- The statements that a picture is read from. -/
def statements (P : Picture) : List Dot.Statement :=
  P.nodes.zipIdx.map nodeStatement ++ P.entries.flatMap entryStatements ++ P.edges.map edgeStatement

def nodeOf? : Dot.Statement → Option (String × Bool)
  | .node _ shape [text] => some (text, shape.isSome)
  | _ => none

def entryOf? : Dot.Statement → Option (Nat × Nat)
  | .entryArrow k i => some (k, i)
  | _ => none

def edgeOf? : Dot.Statement → Option (Nat × Nat × String)
  | .edge i j text _ => some (i, j, text)
  | _ => none

theorem filterMap_nodeOf?_statements (P : Picture) : P.statements.filterMap nodeOf? = P.nodes := by
  have hnode : nodeOf? ∘ nodeStatement = some ∘ Prod.fst := by
    funext node
    obtain ⟨⟨text, initial⟩, i⟩ := node
    cases initial with
    | false => rfl
    | true => rfl
  rw [statements, List.filterMap_append, List.filterMap_append, List.filterMap_map, hnode,
    List.filterMap_eq_map, List.zipIdx_map_fst]
  simp [List.filterMap_flatMap, nodeOf?, entryStatements, edgeStatement, Function.comp_def]

theorem filterMap_entryOf?_statements (P : Picture) :
    P.statements.filterMap entryOf? = P.entries := by
  simp [statements, List.filterMap_flatMap, List.filterMap_cons, entryOf?, nodeStatement,
    entryStatements, edgeStatement, Function.comp_def]

theorem filterMap_edgeOf?_statements (P : Picture) : P.statements.filterMap edgeOf? = P.edges := by
  simp [statements, List.filterMap_flatMap, edgeOf?, nodeStatement, entryStatements,
    edgeStatement, Function.comp_def]

theorem statements_injective : Function.Injective statements := by
  intro P Q h
  have hnodes := congrArg (List.filterMap nodeOf?) h
  have hentries := congrArg (List.filterMap entryOf?) h
  have hedges := congrArg (List.filterMap edgeOf?) h
  rw [filterMap_nodeOf?_statements, filterMap_nodeOf?_statements] at hnodes
  rw [filterMap_entryOf?_statements, filterMap_entryOf?_statements] at hentries
  rw [filterMap_edgeOf?_statements, filterMap_edgeOf?_statements] at hedges
  cases P
  cases Q
  cases hnodes
  cases hentries
  cases hedges
  rfl

theorem mem_entries_of_mem_statements {P : Picture} {k i : Nat}
    (h : .entryArrow k i ∈ P.statements) : (k, i) ∈ P.entries := by
  rw [← filterMap_entryOf?_statements P]
  exact List.mem_filterMap.mpr ⟨_, h, rfl⟩

theorem entryPoint_mem_statements {P : Picture} {k i : Nat} (h : (k, i) ∈ P.entries) :
    .entryPoint k ∈ P.statements :=
  List.mem_append_left _ (List.mem_append_right _ (List.mem_flatMap.mpr
    ⟨(k, i), h, List.mem_cons_self⟩))

theorem mem_edges_of_mem_statements {P : Picture} {i j : Nat} {text style : String}
    (h : .edge i j text style ∈ P.statements) : (i, j, text) ∈ P.edges := by
  rw [← filterMap_edgeOf?_statements P]
  exact List.mem_filterMap.mpr ⟨_, h, rfl⟩

def HasNode (P : Picture) (i : Nat) : Prop := ∃ shape lines, .node i shape lines ∈ P.statements

theorem hasNode_of_lt {P : Picture} {i : Nat} (h : i < P.nodes.length) : P.HasNode i := by
  have hnode : (P.nodes[i], i) ∈ P.nodes.zipIdx :=
    List.mem_zipIdx_iff_getElem?.mpr (List.getElem?_eq_getElem h)
  exact ⟨_, _, List.mem_append_left _ (List.mem_append_left _ (List.mem_map_of_mem hnode))⟩

/-- Whatever an arrow or an edge refers to is drawn. -/
structure Closed (P : Picture) : Prop where
  entry : ∀ k i, .entryArrow k i ∈ P.statements → .entryPoint k ∈ P.statements ∧ P.HasNode i
  edge : ∀ i j text style, .edge i j text style ∈ P.statements → P.HasNode i ∧ P.HasNode j

end Picture

namespace System

variable {S : System} {s : State} {i : Nat}

theorem node?_eq_none (h : s ∉ S.states) : S.node? s = none := by
  rw [node?, Option.map_eq_none_iff, List.find?_eq_none]
  rintro ⟨t, i⟩ ht heq
  have hmem := List.mem_zipIdx_iff_getElem?.mp (List.mem_reverse.mp ht)
  rw [decide_eq_true_eq] at heq
  exact h (heq ▸ List.mem_of_getElem? hmem)

theorem exists_node? (h : s ∈ S.states) : ∃ i, S.node? s = some i ∧ S.states[i]? = some s := by
  cases hfound : S.states.zipIdx.reverse.find? (·.1 = s) with
  | none =>
    obtain ⟨i, hi⟩ := List.mem_iff_getElem?.mp h
    have hmem := List.mem_reverse.mpr (List.mem_zipIdx_iff_getElem? (x := (s, i)).mpr hi)
    have := List.find?_eq_none.mp hfound _ hmem
    simp at this
  | some hit =>
    obtain ⟨t, i⟩ := hit
    have hmem := List.mem_reverse.mp (List.mem_of_find?_eq_some hfound)
    have heq : t = s := by simpa using List.find?_some hfound
    refine ⟨i, by rw [node?, hfound]; rfl, ?_⟩
    rw [List.mem_zipIdx_iff_getElem?.mp hmem, heq]

theorem getElem?_of_node? (h : S.node? s = some i) : S.states[i]? = some s := by
  by_cases hs : s ∈ S.states
  · obtain ⟨j, hj, hget⟩ := exists_node? hs
    rw [h] at hj
    cases hj
    exact hget
  · rw [node?_eq_none hs] at h
    cases h

/-- The arrow from an entry to the node of the state, if the state has one. -/
def drawnArrow? (S : System) (entry : State × Nat) : Option (Nat × Nat) :=
  (S.node? entry.1).map fun i => (entry.2, i)

/-- The edge of a move, if both of its ends have nodes. -/
def drawnEdge? (S : System) (move : State × Action × State) : Option (Nat × Nat × String) :=
  (S.node? move.1).bind fun i => (S.node? move.2.2).map fun j => (i, j, move.2.1.text)

def picture (S : System) : Picture where
  nodes := S.states.map fun s => (s.text ++ "\n" ++ (S.label s).text, S.isInitial s)
  entries := S.initial.zipIdx.filterMap S.drawnArrow?
  edges := S.storedMoves.filterMap S.drawnEdge?

/-! ## From the text to the picture -/

theorem plain_of_mem_nodeStatements {statement : Dot.Statement}
    (h : statement ∈ S.nodeStatements .plain) : statement.Plain := by
  obtain ⟨⟨s, i⟩, _, rfl⟩ := List.mem_map.mp h
  intro w hw
  split at hw
  · cases hw
    exact ⟨by decide, rfl⟩
  · cases hw

theorem plain_of_mem_entryStatements {statement : Dot.Statement}
    (h : statement ∈ S.entryStatements) : statement.Plain := by
  obtain ⟨⟨s, k⟩, _, h⟩ := List.mem_flatMap.mp h
  dsimp only at h
  split at h
  · cases h
  · simp only [List.mem_cons, List.not_mem_nil, or_false] at h
    rcases h with rfl | rfl
    · trivial
    · trivial

theorem plain_of_mem_edgeStatements {statement : Dot.Statement}
    (h : statement ∈ S.edgeStatements .plain) : statement.Plain := by
  obtain ⟨⟨s, a, ts⟩, _, h⟩ := List.mem_flatMap.mp h
  obtain ⟨t, _, h⟩ := List.mem_filterMap.mp h
  obtain ⟨i, _, h⟩ := Option.bind_eq_some_iff.mp h
  obtain ⟨j, _, h⟩ := Option.bind_eq_some_iff.mp h
  cases h
  exact ⟨by decide, rfl⟩

theorem plain_of_mem_drawing {statement : Dot.Statement} (h : statement ∈ S.drawing .plain) :
    statement.Plain := by
  rcases List.mem_append.mp h with h | hedge
  · rcases List.mem_append.mp h with hnode | hentry
    · exact plain_of_mem_nodeStatements hnode
    · exact plain_of_mem_entryStatements hentry
  · exact plain_of_mem_edgeStatements hedge

theorem joined_nodeStatements (S : System) :
    (S.nodeStatements .plain).map Dot.Statement.joined =
      S.picture.nodes.zipIdx.map Picture.nodeStatement := by
  rw [nodeStatements, picture, List.zipIdx_map, List.map_map, List.map_map]
  rfl

theorem joined_entryStatements (S : System) :
    S.entryStatements.map Dot.Statement.joined =
      S.picture.entries.flatMap Picture.entryStatements := by
  change _ = (S.initial.zipIdx.filterMap S.drawnArrow?).flatMap _
  rw [entryStatements]
  induction S.initial.zipIdx with
  | nil => rfl
  | cons entry entries ih =>
    obtain ⟨s, k⟩ := entry
    rw [List.flatMap_cons, List.map_append, ih, List.filterMap_cons]
    cases hs : S.node? s with
    | none => simp [drawnArrow?, hs]
    | some i => simp [drawnArrow?, hs, Dot.Statement.joined, Picture.entryStatements]

theorem joined_edge? (S : System) (s : State) (a : Action) (t : State) :
    (S.edge? .plain s a t).map Dot.Statement.joined =
      (S.drawnEdge? (s, a, t)).map Picture.edgeStatement := by
  rw [edge?, drawnEdge?]
  cases S.node? s with
  | none => rfl
  | some i =>
    cases S.node? t with
    | none => rfl
    | some j => rfl

theorem joined_edgeStatements (S : System) :
    (S.edgeStatements .plain).map Dot.Statement.joined =
      S.picture.edges.map Picture.edgeStatement := by
  rw [edgeStatements, picture, storedMoves, List.filterMap_flatMap, List.map_flatMap,
    List.map_flatMap]
  congr 1
  funext place
  obtain ⟨s, a, ts⟩ := place
  rw [List.filterMap_map, List.map_filterMap, List.map_filterMap]
  exact congrArg (ts.filterMap ·) (funext fun t => joined_edge? S s a t)

theorem joined_drawing (S : System) :
    (S.drawing .plain).map Dot.Statement.joined = S.picture.statements := by
  rw [drawing, List.map_append, List.map_append, joined_nodeStatements, joined_entryStatements,
    joined_edgeStatements, Picture.statements]

theorem read_dotText (S : System) : Dot.read (S.dotText .plain) = some S.picture.statements := by
  have hshape : Dot.IsWord DrawingStyle.plain.nodeShape := ⟨by decide, rfl⟩
  rw [dotText, Dot.read_render hshape fun _ => plain_of_mem_drawing, joined_drawing]

/-! ## From the picture to the system -/

/-- The nodes are those of the declared states in order; and there is an arrow for each declared
initial state in the list and an edge for each stored move between declared states, to and from
nodes of these states. -/
structure DrawnAs (S : System) (P : Picture) : Prop where
  nodes : P.nodes = S.states.map fun s => (s.text ++ "\n" ++ (S.label s).text, S.isInitial s)
  entries : List.Forall₂ (fun entry drawn => drawn.1 = entry.2 ∧ S.states[drawn.2]? = some entry.1)
    (S.initial.zipIdx.filter (·.1 ∈ S.states)) P.entries
  edges : List.Forall₂ (fun move drawn => S.states[drawn.1]? = some move.1 ∧
      S.states[drawn.2.1]? = some move.2.2 ∧ drawn.2.2 = move.2.1.text)
    (S.storedMoves.filter fun move => move.1 ∈ S.states ∧ move.2.2 ∈ S.states) P.edges

theorem drawnAs_picture (S : System) : S.DrawnAs S.picture where
  nodes := rfl
  entries := by
    refine forall₂_filter_filterMap ?_ ?_ S.initial.zipIdx
    · rintro ⟨s, k⟩ hs
      obtain ⟨i, hi, hget⟩ := exists_node? (of_decide_eq_true hs)
      exact ⟨(k, i), by rw [drawnArrow?, hi, Option.map_some], rfl, hget⟩
    · rintro ⟨s, k⟩ hs
      rw [drawnArrow?, node?_eq_none (of_decide_eq_false hs), Option.map_none]
  edges := by
    refine forall₂_filter_filterMap ?_ ?_ S.storedMoves
    · rintro ⟨s, a, t⟩ hends
      obtain ⟨hs, ht⟩ := of_decide_eq_true hends
      obtain ⟨i, hi, hsource⟩ := exists_node? hs
      obtain ⟨j, hj, htarget⟩ := exists_node? ht
      refine ⟨(i, j, a.text), ?_, hsource, htarget, rfl⟩
      rw [drawnEdge?, hi, Option.bind_some, hj, Option.map_some]
    · rintro ⟨s, a, t⟩ hends
      have hends := of_decide_eq_false hends
      rw [drawnEdge?]
      by_cases hs : s ∈ S.states
      · have ht : t ∉ S.states := fun ht => hends ⟨hs, ht⟩
        obtain ⟨i, hi, _⟩ := exists_node? hs
        rw [hi, Option.bind_some, node?_eq_none ht, Option.map_none]
      · rw [node?_eq_none hs, Option.bind_none]

theorem hasNode_picture (h : S.node? s = some i) : S.picture.HasNode i := by
  obtain ⟨hlt, _⟩ := List.getElem?_eq_some_iff.mp (getElem?_of_node? h)
  exact Picture.hasNode_of_lt (by simpa [picture] using hlt)

theorem closed_picture (S : System) : S.picture.Closed where
  entry := by
    intro k i h
    have hentry := Picture.mem_entries_of_mem_statements h
    refine ⟨Picture.entryPoint_mem_statements hentry, ?_⟩
    obtain ⟨⟨s, _⟩, _, hdrawn⟩ := List.mem_filterMap.mp hentry
    obtain ⟨_, hi, heq⟩ := Option.map_eq_some_iff.mp hdrawn
    cases heq
    exact hasNode_picture hi
  edge := by
    intro i j text style h
    have hedge := Picture.mem_edges_of_mem_statements h
    obtain ⟨⟨s, a, t⟩, _, hdrawn⟩ := List.mem_filterMap.mp hedge
    obtain ⟨_, hi, hdrawn⟩ := Option.bind_eq_some_iff.mp hdrawn
    obtain ⟨_, hj, heq⟩ := Option.map_eq_some_iff.mp hdrawn
    cases heq
    exact ⟨hasNode_picture hi, hasNode_picture hj⟩

/-- **Drawings can be read back.** The text of a drawing determines its statements, and they show
the system, whatever its names look like, with the moves in their order; no arrow leads to a node
that is missing, and each system with the same text is drawn as the same picture. -/
theorem dotText_shows (S : System) :
    S.ListsMoves S.storedMoves ∧
      ∃ P : Picture, Dot.read (S.dotText .plain) = some P.statements ∧ S.DrawnAs P ∧ P.Closed ∧
        ∀ T : System, T.dotText .plain = S.dotText .plain → T.DrawnAs P := by
  refine ⟨listsMoves_storedMoves S, S.picture, read_dotText S, drawnAs_picture S, closed_picture S,
    fun T hT => ?_⟩
  have hread := read_dotText T
  rw [hT, read_dotText S, Option.some.injEq] at hread
  rw [Picture.statements_injective hread]
  exact drawnAs_picture T

/-- Names full of quotes, backslashes, line breaks and DOT; a state is declared twice, and some
initial states and targets are not declared. -/
def oddNames : System :=
  .ofEntries (State.ofNames ["a\"];\ns7 [label=\"", "\\n\\", "\\n\\"]) [⟨""⟩, ⟨"\"]; x\\"⟩]
    [(.named "\\n\\", [(⟨""⟩, State.ofNames ["\\n\\", "9", "a\"];\ns7 [label=\""]),
        (⟨"\"]; x\\"⟩, State.ofNames ["\\n\\", "\\n\\"])]),
      (.named "9", [(⟨""⟩, State.ofNames ["\\n\\"])])]
    (State.ofNames ["9", "\\n\\", "\\n\\"]) [] [(.named "\\n\\", Label.ofNames [", \x7d", "\\"])]

/-- The propositions that a system declares are not drawn. -/
theorem dotText_shows_oddNames :
    oddNames.ListsMoves oddNames.storedMoves ∧
      ∃ P : Picture, Dot.read (oddNames.dotText .plain) = some P.statements ∧
        oddNames.DrawnAs P ∧ P.Closed ∧
        (⟨oddNames.states, oddNames.actions, oddNames.moves, oddNames.initial, [⟨"q"⟩],
          oddNames.labels⟩ : System).DrawnAs P := by
  obtain ⟨hmoves, P, hread, hdrawn, hclosed, hsame⟩ := dotText_shows oddNames
  exact ⟨hmoves, P, hread, hdrawn, hclosed, hsame _ rfl⟩

end System
end TransitionSystems
