-- A reader of drawings that takes the text character by character. A text in
-- quotes ends for it at the first quote with no backslash of its own before it,
-- and a statement at a semicolon outside of such a text.
import LogicWiring.Drawing
import LogicWiring.Proofs.TextPieces
import Mathlib

namespace LogicWiring

namespace Dot

/-! ## Tokens -/

/-- A word, a text in quotes as it is written, a mark, or a text in quotes that is never closed. -/
inductive Token
  | word (cs : List Char)
  | quoted (cs : List Char)
  | mark (c : Char)
  | unclosed (cs : List Char)
  deriving DecidableEq, Repr

/-- Where a reader is, and what it has read of the token there: between tokens, in a word, in a text
in quotes, or in such a text behind a backslash, which takes the next character with it. -/
inductive Place
  | between
  | word (cs : List Char)
  | quoted (cs : List Char)
  | escaped (cs : List Char)
  deriving DecidableEq, Repr

namespace Place

/-- A character that belongs to no token before it. -/
def start (c : Char) : List Token × Place :=
  if c = '"' then ([], quoted [])
  else if c.isAlphanum then ([], word [c])
  else if c.isWhitespace then ([], between)
  else ([.mark c], between)

def step : Place → Char → List Token × Place
  | between, c => start c
  | word cs, c =>
    if c.isAlphanum then ([], word (cs ++ [c])) else (.word cs :: (start c).1, (start c).2)
  | quoted cs, c =>
    if c = '"' then ([.quoted cs], between)
    else if c = '\\' then ([], escaped (cs ++ [c]))
    else ([], quoted (cs ++ [c]))
  | escaped cs, c => ([], quoted (cs ++ [c]))

/-- The tokens that end on the way, and where the reader is then. -/
def run (p : Place) : List Char → List Token × Place
  | [] => ([], p)
  | c :: rest =>
    let first := p.step c
    let later := first.2.run rest
    (first.1 ++ later.1, later.2)

/-- The token that the end of the text ends. -/
def stop : Place → List Token
  | between => []
  | word cs => [.word cs]
  | quoted cs | escaped cs => [.unclosed cs]

/-- What comes later is read from the place where the first part ends. -/
theorem run_append (p : Place) (first later : List Char) :
    p.run (first ++ later) =
      ((p.run first).1 ++ ((p.run first).2.run later).1, ((p.run first).2.run later).2) := by
  induction first generalizing p with
  | nil => simp [run]
  | cons c first ih => simp [run, ih]

end Place

def tokens (text : String) : List Token :=
  let read := Place.between.run text.toList
  read.1 ++ read.2.stop

/-- The characters lead from the one place to the other and end these tokens. -/
def Reads (p : Place) (cs : List Char) (ts : List Token) (p' : Place) : Prop := p.run cs = (ts, p')

variable {p p' p'' : Place} {cs cs' : List Char} {ts ts' : List Token}

theorem Reads.append (h : Reads p cs ts p') (h' : Reads p' cs' ts' p'') :
    Reads p (cs ++ cs') (ts ++ ts') p'' := by
  unfold Reads at h h' ⊢
  rw [Place.run_append, h, h']

theorem Reads.refl (p : Place) : Reads p [] [] p := rfl

theorem reads_word (word : List Char) (h : ∀ c ∈ cs, c.isAlphanum = true) :
    Reads (.word word) cs [] (.word (word ++ cs)) := by
  induction cs generalizing word with
  | nil =>
    rw [List.append_nil]
    exact .refl _
  | cons c cs ih =>
    rw [List.forall_mem_cons] at h
    have hstep : Reads (.word word) [c] [] (.word (word ++ [c])) := by
      simp [Reads, Place.run, Place.step, h.1]
    simpa using hstep.append (ih (word ++ [c]) h.2)

/-- The characters stand for themselves in quotes. -/
def Plain (cs : List Char) : Prop := ∀ c ∈ cs, c ≠ '"' ∧ c ≠ '\\'

@[simp] theorem plain_nil : Plain [] := by simp [Plain]

@[simp] theorem plain_cons {c : Char} : Plain (c :: cs) ↔ (c ≠ '"' ∧ c ≠ '\\') ∧ Plain cs :=
  List.forall_mem_cons

@[simp] theorem plain_append : Plain (cs ++ cs') ↔ Plain cs ∧ Plain cs' := List.forall_mem_append

@[simp] theorem plain_toDigits (n : Nat) : Plain (Nat.toDigits 10 n) := by
  intro c hc
  refine ⟨?_, ?_⟩
  · intro he
    rw [he] at hc
    exact not_mem_toDigits rfl n hc
  · intro he
    rw [he] at hc
    exact not_mem_toDigits rfl n hc

theorem reads_plain (text : List Char) (h : Plain cs) :
    Reads (.quoted text) cs [] (.quoted (text ++ cs)) := by
  induction cs generalizing text with
  | nil =>
    rw [List.append_nil]
    exact .refl _
  | cons c cs ih =>
    rw [plain_cons] at h
    have hstep : Reads (.quoted text) [c] [] (.quoted (text ++ [c])) := by
      simp [Reads, Place.run, Place.step, h.1]
    simpa using hstep.append (ih (text ++ [c]) h.2)

/-- No character closes the text once it is escaped. -/
theorem reads_escapeLabelChar (text : List Char) (c : Char) :
    Reads (.quoted text) (escapeLabelChar c) [] (.quoted (text ++ escapeLabelChar c)) := by
  unfold escapeLabelChar
  split
  · simp [Reads, Place.run, Place.step]
  · simp [Reads, Place.run, Place.step]
  · rename_i hslash hquote
    apply reads_plain
    simp_all

theorem reads_escapeLabel (text : List Char) (s : String) :
    Reads (.quoted text) (escapeLabel s).toList [] (.quoted (text ++ (escapeLabel s).toList)) := by
  rw [toList_escapeLabel]
  induction s.toList generalizing text with
  | nil =>
    rw [List.flatMap_nil, List.append_nil]
    exact .refl _
  | cons c cs ih =>
    rw [List.flatMap_cons, ← List.append_assoc]
    exact (reads_escapeLabelChar text c).append (ih _)

/-! ## Labels -/

/-- The lines of a text in quotes: a backslash and an n end a line, and any other character behind a
backslash stands for itself. -/
def linesFrom (line : List Char) : List Char → List String
  | [] => [String.ofList line]
  | '\\' :: 'n' :: rest => String.ofList line :: linesFrom [] rest
  | '\\' :: c :: rest => linesFrom (line ++ [c]) rest
  | c :: rest => linesFrom (line ++ [c]) rest

theorem linesFrom_cons (line : List Char) {c : Char} (hc : c ≠ '\\') (rest : List Char) :
    linesFrom line (c :: rest) = linesFrom (line ++ [c]) rest := by
  simp [linesFrom, hc]

theorem linesFrom_plain (line : List Char) (h : Plain cs) (rest : List Char) :
    linesFrom line (cs ++ rest) = linesFrom (line ++ cs) rest := by
  induction cs generalizing line with
  | nil => simp
  | cons c cs ih =>
    rw [plain_cons] at h
    rw [List.cons_append, linesFrom_cons line h.1.2, ih _ h.2, List.append_assoc]
    rfl

theorem linesFrom_escapeLabelChar (line : List Char) (c : Char) (rest : List Char) :
    linesFrom line (escapeLabelChar c ++ rest) = linesFrom (line ++ [c]) rest := by
  unfold escapeLabelChar
  split
  · rfl
  · rfl
  · rename_i hslash hquote
    exact linesFrom_cons line hslash rest

/-- An escaped text is one line, or the part of one before the rest. -/
theorem linesFrom_escapeLabel (line : List Char) (s : String) (rest : List Char) :
    linesFrom line ((escapeLabel s).toList ++ rest) = linesFrom (line ++ s.toList) rest := by
  rw [toList_escapeLabel]
  induction s.toList generalizing line with
  | nil => simp
  | cons c cs ih =>
    rw [List.flatMap_cons, List.append_assoc, linesFrom_escapeLabelChar, ih, List.append_assoc]
    rfl

/-! ## Statements -/

/-- A name, and its value in lines. -/
structure Attribute where
  name : String
  lines : List String
  deriving DecidableEq, Repr

/-- A setting of the drawing, the attributes of all nodes or all edges, a node, or an edge. -/
inductive Statement
  | setting (name value : String)
  | defaults (kind : String) (attributes : List Attribute)
  | node (name : String) (attributes : List Attribute)
  | edge (source target : String) (attributes : List Attribute)
  deriving DecidableEq, Repr

def readValue? : Token → Option (List String)
  | .word cs => some [String.ofList cs]
  | .quoted cs => some (linesFrom [] cs)
  | _ => none

/-- Attributes with commas between them, and a bracket at the end. -/
def readAttributes? : List Token → Option (List Attribute)
  | [.word name, .mark '=', value, .mark ']'] => do
    let lines ← readValue? value
    return [⟨String.ofList name, lines⟩]
  | .word name :: .mark '=' :: value :: .mark ',' :: rest => do
    let lines ← readValue? value
    let later ← readAttributes? rest
    return ⟨String.ofList name, lines⟩ :: later
  | _ => none

def readStatement? : List Token → Option Statement
  | [.word name, .mark '=', .word value] => some (.setting (String.ofList name) (String.ofList value))
  | .word source :: .mark '-' :: .mark '>' :: .word target :: .mark '[' :: rest => do
    let attributes ← readAttributes? rest
    return .edge (String.ofList source) (String.ofList target) attributes
  | .word name :: .mark '[' :: rest => do
    let attributes ← readAttributes? rest
    if String.ofList name ∈ ["graph", "node", "edge"] then
      return .defaults (String.ofList name) attributes
    else return .node (String.ofList name) attributes
  | _ => none

/-- The statements of a drawing: each ends in a semicolon, and a brace ends them all. -/
def readDrawing? (text : String) : Option (List Statement) :=
  match tokens text with
  | .word first :: .word _ :: .mark '\x7b' :: rest =>
    let pieces := rest.splitOn (.mark ';')
    if String.ofList first = "digraph" ∧ pieces.getLast? = some [.mark '\x7d'] then
      pieces.dropLast.mapM readStatement?
    else none
  | _ => none

/-- The characters are these statements, each with its semicolon, and nothing else. -/
def Spells (cs : List Char) (statements : List Statement) : Prop :=
  ∃ pieces : List (List Token), Reads .between cs (pieces.flatMap (· ++ [.mark ';'])) .between ∧
    (∀ piece ∈ pieces, Token.mark ';' ∉ piece) ∧ pieces.mapM readStatement? = some statements

namespace Spells

variable {statements statements' : List Statement}

theorem nil : Spells [] [] := ⟨[], rfl, by simp, rfl⟩

theorem blank {c : Char} (h : Reads .between [c] [] .between) : Spells [c] [] :=
  ⟨[], h, by simp, rfl⟩

theorem single {piece : List Token} {statement : Statement}
    (hreads : Reads .between cs (piece ++ [.mark ';']) .between) (hpiece : Token.mark ';' ∉ piece)
    (hread : readStatement? piece = some statement) : Spells cs [statement] := by
  refine ⟨[piece], by simpa using hreads, by simpa using hpiece, ?_⟩
  rw [List.mapM_cons, hread]
  rfl

theorem append (h : Spells cs statements) (h' : Spells cs' statements') :
    Spells (cs ++ cs') (statements ++ statements') := by
  obtain ⟨pieces, hreads, hmark, hread⟩ := h
  obtain ⟨pieces', hreads', hmark', hread'⟩ := h'
  refine ⟨pieces ++ pieces', ?_, ?_, ?_⟩
  · rw [List.flatMap_append]
    exact hreads.append hreads'
  · intro piece hpiece
    rcases List.mem_append.1 hpiece with hpiece | hpiece
    · exact hmark piece hpiece
    · exact hmark' piece hpiece
  · rw [List.mapM_append, hread, hread']
    rfl

theorem join {α : Type} {text : α → String} {statement : α → Statement} (items : List α)
    (h : ∀ a, Spells (text a).toList [statement a]) :
    Spells (String.join (items.map text)).toList (items.map statement) := by
  induction items with
  | nil => exact .nil
  | cons a items ih =>
    rw [List.map_cons, String.join_cons, String.toList_append, List.map_cons]
    exact (h a).append ih

/-- A drawing that opens with a name and closes behind its statements. -/
theorem readDrawing (h : Spells cs statements) {name : List Char} {opening closing text : String}
    (htext : text.toList = opening.toList ++ (cs ++ closing.toList))
    (hopening : Reads .between opening.toList
      [.word "digraph".toList, .word name, .mark '\x7b'] .between)
    (hclosing : Reads .between closing.toList [.mark '\x7d'] .between) :
    readDrawing? text = some statements := by
  obtain ⟨pieces, hreads, hmark, hread⟩ := h
  have htokens : tokens text = .word "digraph".toList :: .word name :: .mark '\x7b' ::
      (pieces.flatMap (· ++ [.mark ';']) ++ [.mark '\x7d']) := by
    have hrun := hopening.append (hreads.append hclosing)
    unfold Reads at hrun
    simp only [tokens, htext, hrun, Place.stop, List.append_nil]
    rfl
  have hbrace : Token.mark ';' ∉ [Token.mark '\x7d'] := by decide
  have hpieces := splitOn_ended hmark hbrace
  simp only [readDrawing?, htokens, hpieces, List.dropLast_concat, List.getLast?_concat,
    String.ofList_toList, and_self, if_true, hread]

end Spells

end Dot

end LogicWiring
