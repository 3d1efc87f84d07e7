import TransitionSystems.System.Basic

/-!
Drawings of systems as graphs: a node for each declared state, numbered in their order; a point with
an arrow for each initial state; and an edge for each stored target, in ascending order of sources
and actions. Whatever has an end that is not declared is left out.

The graphs are directed ones in the DOT language, as far as drawings of systems need it: nodes and
edges with text, and arrows that come in from a point. A statement takes one line, except that a
line break in a text is written as it is. Inside quotes a backslash is written before each backslash
and each quote, and the lines of a text are separated by a backslash and an `n`.
-/
namespace TransitionSystems

namespace Dot

inductive Statement
  /-- A node with a shape of its own, or else the common one, and the lines of its text. -/
  | node (id : Nat) (shape : Option String) (lines : List String)
  | entryPoint (index : Nat)
  | entryArrow (index : Nat) (target : Nat)
  | edge (source target : Nat) (text : String) (style : String)
deriving DecidableEq

def escapeChar (c : Char) : List Char :=
  if c = '\\' ∨ c = '"' then ['\\', c] else [c]

def escape (text : String) : String := .ofList (text.toList.flatMap escapeChar)

def escapeLines (lines : List String) : String := "\\n".intercalate (lines.map escape)

def Statement.text : Statement → String
  | .node i none lines => s!"s{i} [label=\"{escapeLines lines}\"];\n"
  | .node i (some shape) lines => s!"s{i} [shape={shape}, label=\"{escapeLines lines}\"];\n"
  | .entryPoint k => s!"init{k} [shape=point, label=\"\"];\n"
  | .entryArrow k i => s!"init{k} -> s{i};\n"
  | .edge i j text style => s!"s{i} -> s{j} [label=\"{escape text}\", style={style}];\n"

/-- The whole graph. Nodes without a shape of their own have the given one. -/
def render (shape : String) (statements : List Statement) : String :=
  "digraph \x7b\nrankdir=LR;\n" ++ s!"node [shape={shape}];\n" ++
    String.join (statements.map Statement.text) ++ "\x7d\n"

end Dot

/-! ## Systems -/

/-- How a system is drawn. -/
structure DrawingStyle where
  nodeShape : String
  initialShape : String
  edgeStyle : String
  /-- Under each state stand the propositions that hold in it. -/
  showLabels : Bool
deriving DecidableEq

/-- Circles, double ones for initial states, and solid edges; labels are shown. -/
def DrawingStyle.plain : DrawingStyle := ⟨"circle", "doublecircle", "solid", true⟩

instance : Inhabited DrawingStyle := ⟨.plain⟩

namespace System

/-- The number of the node of `s`. Of the nodes of a state that is declared repeatedly it is the
last. -/
def node? (S : System) (s : State) : Option Nat :=
  (S.states.zipIdx.reverse.find? (·.1 = s)).map (·.2)

def nodeStatements (S : System) (style : DrawingStyle) : List Dot.Statement :=
  S.states.zipIdx.map fun (s, i) =>
    .node i (if S.isInitial s then some style.initialShape else none)
      (if style.showLabels then [s.text, (S.label s).text] else [s.text])

def entryStatements (S : System) : List Dot.Statement :=
  S.initial.zipIdx.flatMap fun (s, k) =>
    match S.node? s with
    | none => []
    | some i => [.entryPoint k, .entryArrow k i]

def edge? (S : System) (style : DrawingStyle) (s : State) (a : Action) (t : State) :
    Option Dot.Statement := do
  let i ← S.node? s
  let j ← S.node? t
  return .edge i j a.text style.edgeStyle

def edgeStatements (S : System) (style : DrawingStyle) : List Dot.Statement :=
  (Grid.places S.moves.rows).flatMap fun (s, a, targets) => targets.filterMap (S.edge? style s a)

def drawing (S : System) (style : DrawingStyle) : List Dot.Statement :=
  S.nodeStatements style ++ S.entryStatements ++ S.edgeStatements style

def dotText (S : System) (style : DrawingStyle) : String :=
  Dot.render style.nodeShape (S.drawing style)

end System

end TransitionSystems
