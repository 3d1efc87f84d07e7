import TransitionSystems.System.Drawing

/-!
The words, marks and quoted texts that a text in the DOT language is made of. The text is gone
through once, character by character; what a character means depends on whether a word, an arrow, a
quoted text or an escape in one has been begun. What is read of a part of the text depends on the
part alone and the mode it is read in (`Scans.append`), and what was escaped is read as it was
before (`scans_escapeLines`).
-/
namespace TransitionSystems.Dot

inductive Token
  | word (text : String)
  | quoted (text : String)
  | arrow
  | equals
  | comma
  | semicolon
  | openBracket
  | closeBracket
  | openBrace
  | closeBrace
deriving DecidableEq

/-- What has been begun, with the characters that belong to it so far. -/
inductive Mode
  | gap
  | word (read : List Char)
  | dash
  | quoted (read : List Char)
  | escape (read : List Char)
deriving DecidableEq

def mark? : Char → Option Token
  | '=' => some .equals
  | ',' => some .comma
  | ';' => some .semicolon
  | '[' => some .openBracket
  | ']' => some .closeBracket
  | '\x7b' => some .openBrace
  | '\x7d' => some .closeBrace
  | _ => none

/-- The character that an escape in a quoted text stands for. -/
def unescape? : Char → Option Char
  | '"' => some '"'
  | '\\' => some '\\'
  | 'n' => some '\n'
  | _ => none

/-- A character where no word or text goes on. -/
def begin? (c : Char) : Option (Mode × List Token) :=
  if c.isAlphanum then some (.word [c], [])
  else if c.isWhitespace then some (.gap, [])
  else if c = '"' then some (.quoted [], [])
  else if c = '-' then some (.dash, [])
  else (mark? c).map fun token => (.gap, [token])

/-- The mode after the next character, and the tokens that the character completes. -/
def Mode.next? (c : Char) : Mode → Option (Mode × List Token)
  | gap => begin? c
  | word read =>
    if c.isAlphanum then some (.word (read ++ [c]), [])
    else (begin? c).map fun (mode, tokens) => (mode, .word (.ofList read) :: tokens)
  | dash => if c = '>' then some (.gap, [.arrow]) else none
  | quoted read =>
    if c = '"' then some (.gap, [.quoted (.ofList read)])
    else if c = '\\' then some (.escape read, [])
    else some (.quoted (read ++ [c]), [])
  | escape read => (unescape? c).map fun d => (.quoted (read ++ [d]), [])

/-- Goes through the characters, and returns the mode at the end with the tokens completed. -/
def scan? : Mode → List Char → Option (Mode × List Token)
  | mode, [] => some (mode, [])
  | mode, c :: cs => (mode.next? c).bind fun step =>
    (scan? step.1 cs).map fun rest => (rest.1, step.2 ++ rest.2)

/-- The tokens of a text that ends between two of them. -/
def tokens? (text : String) : Option (List Token) :=
  (scan? .gap text.toList).bind fun result => if result.1 = .gap then some result.2 else none

/-- The characters lead from one mode to another and complete the tokens. -/
def Scans (mode : Mode) (cs : List Char) (last : Mode) (tokens : List Token) : Prop :=
  scan? mode cs = some (last, tokens)

variable {mode middle last : Mode} {c : Char} {cs ds : List Char} {ts us : List Token}

theorem Scans.nil (mode : Mode) : Scans mode [] mode [] := rfl

theorem Scans.cons (hstep : mode.next? c = some (middle, ts)) (h : Scans middle cs last us) :
    Scans mode (c :: cs) last (ts ++ us) := by
  rw [Scans] at h ⊢
  rw [scan?, hstep, Option.bind_some, h]
  rfl

theorem Scans.append (h : Scans mode cs middle ts) (h' : Scans middle ds last us) :
    Scans mode (cs ++ ds) last (ts ++ us) := by
  induction cs generalizing mode ts with
  | nil =>
    cases h
    exact h'
  | cons c cs ih =>
    obtain ⟨step, hstep, hrest⟩ := Option.bind_eq_some_iff.mp h
    obtain ⟨rest, hscan, heq⟩ := Option.map_eq_some_iff.mp hrest
    cases heq
    rw [List.append_assoc]
    exact .cons hstep (ih hscan)

theorem Scans.tokens?_eq {text : String} (h : Scans .gap text.toList .gap ts) :
    tokens? text = some ts := by
  rw [Scans] at h
  rw [tokens?, h]
  rfl

/-! ## Words -/

def IsWord (w : String) : Prop := w.toList ≠ [] ∧ w.toList.all Char.isAlphanum = true

theorem scans_letters (read : List Char) (h : ∀ c ∈ cs, c.isAlphanum = true) :
    Scans (.word read) cs (.word (read ++ cs)) [] := by
  induction cs generalizing read with
  | nil =>
    rw [List.append_nil]
    exact .nil _
  | cons c cs ih =>
    have hstep : Mode.next? c (.word read) = some (.word (read ++ [c]), []) :=
      if_pos (h c List.mem_cons_self)
    rw [List.append_cons]
    exact .cons hstep (ih _ fun d hd => h d (List.mem_cons_of_mem _ hd))

/-- A word is not complete before a character follows that does not belong to it. -/
theorem scans_word {w : String} (h : IsWord w) : Scans .gap w.toList (.word w.toList) [] := by
  obtain ⟨hne, hletters⟩ := h
  obtain ⟨c, cs, hw⟩ := List.exists_cons_of_ne_nil hne
  rw [hw, List.all_eq_true] at hletters
  rw [hw]
  have hstep : Mode.next? c .gap = some (.word [c], []) := if_pos (hletters c List.mem_cons_self)
  exact .cons hstep (scans_letters [c] fun d hd => hletters d (List.mem_cons_of_mem _ hd))

/-! ## Quoted texts -/

theorem scans_escapeChar (read : List Char) (c : Char) :
    Scans (.quoted read) (escapeChar c) (.quoted (read ++ [c])) [] := by
  rw [escapeChar]
  split
  · rename_i hc
    rcases hc with rfl | rfl
    · rfl
    · rfl
  · rename_i hc
    rw [not_or] at hc
    have hstep : Mode.next? c (.quoted read) = some (.quoted (read ++ [c]), []) := by
      rw [Mode.next?, if_neg hc.2, if_neg hc.1]
    exact .cons hstep (.nil _)

theorem scans_escape (read : List Char) (text : String) :
    Scans (.quoted read) (escape text).toList (.quoted (read ++ text.toList)) [] := by
  rw [escape, String.toList_ofList]
  induction text.toList generalizing read with
  | nil =>
    rw [List.append_nil]
    exact .nil _
  | cons c cs ih =>
    rw [List.flatMap_cons, List.append_cons]
    exact (scans_escapeChar read c).append (ih (read ++ [c]))

/-- A raw backslash and an `n` come only from between two lines. -/
theorem scans_escapeLines (read : List Char) (lines : List String) :
    Scans (.quoted read) (escapeLines lines).toList
      (.quoted (read ++ ("\n".intercalate lines).toList)) [] := by
  rw [escapeLines]
  induction lines generalizing read with
  | nil => simp [Scans, scan?]
  | cons line lines ih =>
    cases lines with
    | nil => simpa using scans_escape read line
    | cons next lines =>
      have hbreak (read : List Char) :
          Scans (.quoted read) "\\n".toList (.quoted (read ++ ['\n'])) [] := rfl
      have hall := ((scans_escape read line).append (hbreak _)).append (ih _)
      rw [List.map_cons, List.map_cons, String.intercalate_cons_cons, String.intercalate_cons_cons]
      simpa [List.append_assoc] using hall

end TransitionSystems.Dot
