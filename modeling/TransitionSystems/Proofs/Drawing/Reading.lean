import TransitionSystems.Proofs.Drawing.Tokens

/-!
Reading graphs in the DOT language. The reader knows nothing of how a text is laid out: it takes the
tokens apart at the semicolons and reads a node, an arrow or an edge from each part, with attributes
in any order. Whatever graph is written, it reads the same statements in the same order, except that
the lines of a text come back as one text with line breaks in it (`read_render`).
-/
namespace TransitionSystems.Dot

/-! ## The reader -/

/-- What a word stands for that names something drawn. -/
inductive Name
  | node (id : Nat)
  | entry (index : Nat)

def number? (digits : List Char) : Option Nat :=
  if digits ≠ [] ∧ digits.all Char.isDigit then some (Nat.ofDigitChars 10 digits 0) else none

def name? (w : String) : Option Name :=
  match w.toList with
  | 's' :: digits => (number? digits).map .node
  | 'i' :: 'n' :: 'i' :: 't' :: digits => (number? digits).map .entry
  | _ => none

abbrev Attributes := List (String × String)

def value? : Token → Option String
  | .word w => some w
  | .quoted text => some text
  | _ => none

/-- Attributes up to the bracket that closes them, which has to be the last token. -/
def attributes? : List Token → Option Attributes
  | [.word key, .equals, value, .closeBracket] => (value? value).map fun v => [(key, v)]
  | .word key :: .equals :: value :: .comma :: rest =>
    (value? value).bind fun v => (attributes? rest).map ((key, v) :: ·)
  | _ => none

def options? : List Token → Option Attributes
  | [] => some []
  | .openBracket :: rest => attributes? rest
  | _ => none

def nodeStatement? (name : Name) (attributes : Attributes) : Option Statement :=
  match name with
  | .node i => (attributes.lookup "label").map fun text =>
    .node i (attributes.lookup "shape") [text]
  | .entry k => if attributes.lookup "shape" = some "point" then some (.entryPoint k) else none

def edgeStatement? (source target : Name) (attributes : Attributes) : Option Statement :=
  match source, target with
  | .entry k, .node i => if attributes = [] then some (.entryArrow k i) else none
  | .node i, .node j =>
    (attributes.lookup "label").bind fun text => (attributes.lookup "style").map fun style =>
      .edge i j text style
  | _, _ => none

/-- The statements in one part of the text. Settings, which say how the graph or all nodes are
drawn, have none. -/
def part? : List Token → Option (List Statement)
  | .word source :: .arrow :: .word target :: rest =>
    (name? source).bind fun s => (name? target).bind fun t =>
      (options? rest).bind fun attributes => (edgeStatement? s t attributes).map ([·])
  | [.word _, .equals, value] => (value? value).map fun _ => []
  | .word w :: rest =>
    if w = "node" then (options? rest).map fun _ => []
    else (name? w).bind fun name =>
      (options? rest).bind fun attributes => (nodeStatement? name attributes).map ([·])
  | _ => none

def parts? : List (List Token) → Option (List Statement)
  | [] => some []
  | part :: rest => (part? part).bind fun first => (parts? rest).map (first ++ ·)

/-- A graph is one pair of braces around parts that all end in a semicolon. -/
def graph? : List Token → Option (List Statement)
  | .word "digraph" :: .openBrace :: body =>
    match (body.splitOn .semicolon).reverse with
    | [.closeBrace] :: parts => parts? parts.reverse
    | _ => none
  | _ => none

def read (text : String) : Option (List Statement) := (tokens? text).bind graph?

/-! ## Statements as tokens -/

/-- The text of a node in one piece, as it is read. -/
def Statement.joined : Statement → Statement
  | .node i shape lines => .node i shape ["\n".intercalate lines]
  | statement => statement

def nodeName (i : Nat) : String := s!"s{i}"

def entryName (k : Nat) : String := s!"init{k}"

/-- The tokens of a statement, except for the semicolon at its end. -/
def Statement.tokens : Statement → List Token
  | .node i none lines =>
    [.word (nodeName i), .openBracket, .word "label", .equals, .quoted ("\n".intercalate lines),
      .closeBracket]
  | .node i (some shape) lines =>
    [.word (nodeName i), .openBracket, .word "shape", .equals, .word shape, .comma, .word "label",
      .equals, .quoted ("\n".intercalate lines), .closeBracket]
  | .entryPoint k =>
    [.word (entryName k), .openBracket, .word "shape", .equals, .word "point", .comma,
      .word "label", .equals, .quoted "", .closeBracket]
  | .entryArrow k i => [.word (entryName k), .arrow, .word (nodeName i)]
  | .edge i j text style =>
    [.word (nodeName i), .arrow, .word (nodeName j), .openBracket, .word "label", .equals,
      .quoted text, .comma, .word "style", .equals, .word style, .closeBracket]

/-- Shapes and styles, which are not quoted, are words. -/
def Statement.Plain : Statement → Prop
  | .node _ shape _ => ∀ w ∈ shape, IsWord w
  | .edge _ _ _ style => IsWord style
  | _ => True

theorem toList_nodeName (i : Nat) : (nodeName i).toList = 's' :: Nat.toDigits 10 i := by
  have h : (nodeName i).toList = "s".toList ++ (toString i).toList := String.toList_append
  rw [h, Nat.toString_eq_repr, Nat.toList_repr]
  rfl

theorem toList_entryName (k : Nat) :
    (entryName k).toList = 'i' :: 'n' :: 'i' :: 't' :: Nat.toDigits 10 k := by
  have h : (entryName k).toList = "init".toList ++ (toString k).toList := String.toList_append
  rw [h, Nat.toString_eq_repr, Nat.toList_repr]
  rfl

theorem number?_toDigits (n : Nat) : number? (Nat.toDigits 10 n) = some n := by
  have hdigits : (Nat.toDigits 10 n).all Char.isDigit = true :=
    List.all_eq_true.mpr fun c hc => Nat.isDigit_of_mem_toDigits (by decide) (by decide) hc
  rw [number?, if_pos ⟨Nat.toDigits_ne_nil, hdigits⟩, Nat.ofDigitChars_ten_toDigits]

theorem name?_nodeName (i : Nat) : name? (nodeName i) = some (.node i) := by
  rw [name?, toList_nodeName]
  simp [number?_toDigits]

theorem name?_entryName (k : Nat) : name? (entryName k) = some (.entry k) := by
  rw [name?, toList_entryName]
  simp [number?_toDigits]

theorem isAlphanum_of_mem_toDigits {n : Nat} {c : Char} (hc : c ∈ Nat.toDigits 10 n) :
    c.isAlphanum = true := by
  rw [Char.isAlphanum, Nat.isDigit_of_mem_toDigits (by decide) (by decide) hc, Bool.or_true]

/-! ## What the reader makes of a statement -/

theorem nodeName_ne (i : Nat) : nodeName i ≠ "node" := by
  intro h
  have hlist := congrArg String.toList h
  rw [toList_nodeName] at hlist
  simp at hlist

theorem entryName_ne (k : Nat) : entryName k ≠ "node" := by
  intro h
  have hlist := congrArg String.toList h
  rw [toList_entryName] at hlist
  simp at hlist

theorem part?_tokens (statement : Statement) :
    part? statement.tokens = some [statement.joined] := by
  cases statement with
  | node i shape lines =>
    cases shape with
    | none =>
      simp [Statement.tokens, Statement.joined, part?, nodeName_ne, name?_nodeName, options?,
        attributes?, value?, nodeStatement?, List.lookup_cons]
    | some shape =>
      simp [Statement.tokens, Statement.joined, part?, nodeName_ne, name?_nodeName, options?,
        attributes?, value?, nodeStatement?, List.lookup_cons]
  | entryPoint k =>
    simp [Statement.tokens, Statement.joined, part?, entryName_ne, name?_entryName, options?,
      attributes?, value?, nodeStatement?, List.lookup_cons]
  | entryArrow k i =>
    simp [Statement.tokens, Statement.joined, part?, name?_entryName, name?_nodeName, options?,
      edgeStatement?]
  | edge i j text style =>
    simp [Statement.tokens, Statement.joined, part?, name?_nodeName, options?, attributes?,
      value?, edgeStatement?, List.lookup_cons]

theorem parts?_map_tokens (statements : List Statement) :
    parts? (statements.map Statement.tokens) = some (statements.map Statement.joined) := by
  induction statements with
  | nil => rfl
  | cons statement statements ih =>
    rw [List.map_cons, parts?, part?_tokens, Option.bind_some, ih]
    rfl

theorem splitOn_flatMap {α : Type} [BEq α] [LawfulBEq α] {separator : α} {parts : List (List α)}
    {last : List α} (h : ∀ part ∈ parts, separator ∉ part) (hlast : separator ∉ last) :
    (parts.flatMap (· ++ [separator]) ++ last).splitOn separator = parts ++ [last] := by
  induction parts with
  | nil => exact List.splitOn_eq_singleton hlast
  | cons part parts ih =>
    rw [List.flatMap_cons, List.append_assoc, List.append_assoc, List.singleton_append,
      List.splitOn_append_cons_self_of_not_mem (h part List.mem_cons_self),
      ih fun part hpart => h part (List.mem_cons_of_mem _ hpart)]
    rfl

theorem semicolon_not_mem_tokens (statement : Statement) :
    Token.semicolon ∉ statement.tokens := by
  cases statement with
  | node i shape lines => cases shape <;> simp [Statement.tokens]
  | entryPoint k => simp [Statement.tokens]
  | entryArrow k i => simp [Statement.tokens]
  | edge i j text style => simp [Statement.tokens]

/-! ## What the scanner makes of a statement -/

theorem scans_after_word {w : String} {cs : List Char} {last : Mode} {ts : List Token}
    (h : Scans (.word w.toList) cs last (.word (.ofList w.toList) :: ts)) :
    Scans (.word w.toList) cs last (.word w :: ts) := by
  rwa [String.ofList_toList] at h

theorem scans_after_quoted {text : String} {cs : List Char} {last : Mode} {ts : List Token}
    (h : Scans (.quoted text.toList) cs last (.quoted (.ofList text.toList) :: ts)) :
    Scans (.quoted text.toList) cs last (.quoted text :: ts) := by
  rwa [String.ofList_toList] at h

/-- Digits go on with the word that stands before them. -/
theorem Scans.number {mode : Mode} {cs letters : List Char} {ts : List Token}
    (h : Scans mode cs (.word letters) ts) (n : Nat) :
    Scans mode (cs ++ (toString n).toList) (.word (letters ++ Nat.toDigits 10 n)) ts := by
  have hdigits := scans_letters letters fun c (hc : c ∈ Nat.toDigits 10 n) =>
    isAlphanum_of_mem_toDigits hc
  rw [Nat.toString_eq_repr, Nat.toList_repr]
  simpa only [List.append_nil] using h.append hdigits

theorem scans_nodeName (i : Nat) :
    Scans .gap ("s" ++ toString i).toList (.word (nodeName i).toList) [] := by
  have hprefix : Scans .gap "s".toList (.word ['s']) [] := rfl
  rw [toList_nodeName, String.toList_append]
  exact hprefix.number i

theorem scans_entryName (k : Nat) :
    Scans .gap ("init" ++ toString k).toList (.word (entryName k).toList) [] := by
  have hprefix : Scans .gap "init".toList (.word ['i', 'n', 'i', 't']) [] := rfl
  rw [toList_entryName, String.toList_append]
  exact hprefix.number k

/-- An arrow from the name `w` to the node `i`. -/
theorem scans_target (w : String) (i : Nat) :
    Scans (.word w.toList) (" -> s" ++ toString i).toList (.word (nodeName i).toList)
      [.word w, .arrow] := by
  have harrow : Scans (.word w.toList) " -> s".toList (.word ['s']) [.word w, .arrow] :=
    scans_after_word rfl
  rw [toList_nodeName, String.toList_append]
  exact harrow.number i

theorem scans_node (i : Nat) (lines : List String) :
    Scans .gap (Statement.node i none lines).text.toList .gap
      ((Statement.node i none lines).tokens ++ [.semicolon]) := by
  have htext : (Statement.node i none lines).text =
      ("s" ++ toString i) ++ " [label=\"" ++ escapeLines lines ++ "\"];\n" := rfl
  have hlabel : Scans (.word (nodeName i).toList) " [label=\"".toList (.quoted [])
      [.word (nodeName i), .openBracket, .word "label", .equals] := scans_after_word rfl
  have hend : Scans (.quoted ("\n".intercalate lines).toList) "\"];\n".toList .gap
      [.quoted ("\n".intercalate lines), .closeBracket, .semicolon] := scans_after_quoted rfl
  rw [htext, String.toList_append, String.toList_append, String.toList_append]
  exact (((scans_nodeName i).append hlabel).append (scans_escapeLines [] lines)).append hend

theorem scans_shapedNode (i : Nat) {shape : String} (h : IsWord shape) (lines : List String) :
    Scans .gap (Statement.node i (some shape) lines).text.toList .gap
      ((Statement.node i (some shape) lines).tokens ++ [.semicolon]) := by
  have htext : (Statement.node i (some shape) lines).text = ("s" ++ toString i) ++ " [shape=" ++
      shape ++ ", label=\"" ++ escapeLines lines ++ "\"];\n" := rfl
  have hshape : Scans (.word (nodeName i).toList) " [shape=".toList .gap
      [.word (nodeName i), .openBracket, .word "shape", .equals] := scans_after_word rfl
  have hlabel : Scans (.word shape.toList) ", label=\"".toList (.quoted [])
      [.word shape, .comma, .word "label", .equals] := scans_after_word rfl
  have hend : Scans (.quoted ("\n".intercalate lines).toList) "\"];\n".toList .gap
      [.quoted ("\n".intercalate lines), .closeBracket, .semicolon] := scans_after_quoted rfl
  rw [htext, String.toList_append, String.toList_append, String.toList_append,
    String.toList_append, String.toList_append]
  exact (((((scans_nodeName i).append hshape).append (scans_word h)).append hlabel).append
    (scans_escapeLines [] lines)).append hend

theorem scans_entryPoint (k : Nat) :
    Scans .gap (Statement.entryPoint k).text.toList .gap
      ((Statement.entryPoint k).tokens ++ [.semicolon]) := by
  have htext : (Statement.entryPoint k).text =
      ("init" ++ toString k) ++ " [shape=point, label=\"\"];\n" := rfl
  have hpoint : Scans (.word (entryName k).toList) " [shape=point, label=\"\"];\n".toList .gap
      ((Statement.entryPoint k).tokens ++ [.semicolon]) := scans_after_word rfl
  rw [htext, String.toList_append]
  exact (scans_entryName k).append hpoint

theorem scans_entryArrow (k i : Nat) :
    Scans .gap (Statement.entryArrow k i).text.toList .gap
      ((Statement.entryArrow k i).tokens ++ [.semicolon]) := by
  have htext : (Statement.entryArrow k i).text =
      ("init" ++ toString k) ++ (" -> s" ++ toString i) ++ ";\n" := by
    rw [← String.append_assoc]
    rfl
  have hend :
      Scans (.word (nodeName i).toList) ";\n".toList .gap [.word (nodeName i), .semicolon] :=
    scans_after_word rfl
  rw [htext, String.toList_append, String.toList_append]
  exact ((scans_entryName k).append (scans_target _ i)).append hend

theorem scans_edge (i j : Nat) (text : String) {style : String} (h : IsWord style) :
    Scans .gap (Statement.edge i j text style).text.toList .gap
      ((Statement.edge i j text style).tokens ++ [.semicolon]) := by
  have htext : (Statement.edge i j text style).text = ("s" ++ toString i) ++
      (" -> s" ++ toString j) ++ " [label=\"" ++ escape text ++ "\", style=" ++ style ++
        "];\n" := by
    rw [← String.append_assoc]
    rfl
  have hlabel : Scans (.word (nodeName j).toList) " [label=\"".toList (.quoted [])
      [.word (nodeName j), .openBracket, .word "label", .equals] := scans_after_word rfl
  have hstyle : Scans (.quoted text.toList) "\", style=".toList .gap
      [.quoted text, .comma, .word "style", .equals] := scans_after_quoted rfl
  have hend : Scans (.word style.toList) "];\n".toList .gap
      [.word style, .closeBracket, .semicolon] := scans_after_word rfl
  rw [htext, String.toList_append, String.toList_append, String.toList_append,
    String.toList_append, String.toList_append, String.toList_append]
  exact ((((((scans_nodeName i).append (scans_target _ j)).append hlabel).append
    (scans_escape [] text)).append hstyle).append (scans_word h)).append hend

theorem scans_statement {statement : Statement} (h : statement.Plain) :
    Scans .gap statement.text.toList .gap (statement.tokens ++ [.semicolon]) := by
  cases statement with
  | node i shape lines =>
    cases shape with
    | none => exact scans_node i lines
    | some shape => exact scans_shapedNode i (h shape rfl) lines
  | entryPoint k => exact scans_entryPoint k
  | entryArrow k i => exact scans_entryArrow k i
  | edge i j text style => exact scans_edge i j text h

theorem scans_statements {statements : List Statement} (h : ∀ s ∈ statements, s.Plain) :
    Scans .gap (String.join (statements.map Statement.text)).toList .gap
      ((statements.map Statement.tokens).flatMap (· ++ [.semicolon])) := by
  rw [String.toList_join]
  induction statements with
  | nil => exact .nil .gap
  | cons statement statements ih =>
    have hfirst := scans_statement (h statement List.mem_cons_self)
    exact hfirst.append (ih fun s hs => h s (List.mem_cons_of_mem _ hs))

/-! ## Graphs -/

/-- The parts of a graph that stand before its statements. -/
def settings (shape : String) : List (List Token) :=
  [[.word "rankdir", .equals, .word "LR"],
    [.word "node", .openBracket, .word "shape", .equals, .word shape, .closeBracket]]

theorem scans_render {shape : String} (hshape : IsWord shape) {statements : List Statement}
    (h : ∀ s ∈ statements, s.Plain) :
    Scans .gap (render shape statements).toList .gap
      (.word "digraph" :: .openBrace ::
        ((settings shape ++ statements.map Statement.tokens).flatMap (· ++ [.semicolon]) ++
          [.closeBrace])) := by
  have htext : render shape statements = "digraph \x7b\nrankdir=LR;\n" ++
      ("node [shape=" ++ shape ++ "];\n") ++ String.join (statements.map Statement.text) ++
      "\x7d\n" := rfl
  have hopen : Scans .gap "digraph \x7b\nrankdir=LR;\n".toList .gap
      [.word "digraph", .openBrace, .word "rankdir", .equals, .word "LR", .semicolon] := rfl
  have hnode : Scans .gap "node [shape=".toList .gap
      [.word "node", .openBracket, .word "shape", .equals] := rfl
  have hend : Scans (.word shape.toList) "];\n".toList .gap
      [.word shape, .closeBracket, .semicolon] := scans_after_word rfl
  have hclose : Scans .gap "\x7d\n".toList .gap [.closeBrace] := rfl
  rw [htext, String.toList_append, String.toList_append, String.toList_append,
    String.toList_append, String.toList_append, List.flatMap_append]
  exact ((hopen.append ((hnode.append (scans_word hshape)).append hend)).append
    (scans_statements h)).append hclose

theorem graph?_of_parts (shape : String) (statements : List Statement) :
    graph? (.word "digraph" :: .openBrace ::
      ((settings shape ++ statements.map Statement.tokens).flatMap (· ++ [.semicolon]) ++
        [.closeBrace])) = some (statements.map Statement.joined) := by
  have hparts : ∀ part ∈ settings shape ++ statements.map Statement.tokens,
      Token.semicolon ∉ part := by
    intro part hpart
    rcases List.mem_append.mp hpart with hpart | hpart
    · simp only [settings, List.mem_cons, List.not_mem_nil, or_false] at hpart
      rcases hpart with rfl | rfl
      · decide
      · simp
    · obtain ⟨statement, _, rfl⟩ := List.mem_map.mp hpart
      exact semicolon_not_mem_tokens statement
  have hsettings : parts? (settings shape ++ statements.map Statement.tokens) =
      parts? (statements.map Statement.tokens) := by
    simp [settings, parts?, part?, value?, options?, attributes?]
  rw [graph?, splitOn_flatMap hparts (by decide), List.reverse_append]
  simp [hsettings, parts?_map_tokens]

/-- **What is written can be read.** -/
theorem read_render {shape : String} (hshape : IsWord shape) {statements : List Statement}
    (h : ∀ s ∈ statements, s.Plain) :
    read (render shape statements) = some (statements.map Statement.joined) := by
  rw [read, (scans_render hshape h).tokens?_eq, Option.bind_some, graph?_of_parts]

/-- The layout of the text does not matter to the reader, nor does the order of the attributes. -/
example :
    read "digraph\x7bs3[label=\"a\\\\\\nb\",shape = box]; s3->s1 [style=solid, label=\"\"];\x7d\n" =
      some [.node 3 (some "box") ["a\\\nb"], .edge 3 1 "" "solid"] := by
  decide

end TransitionSystems.Dot
