-- The drawing of a graph, read back. Whatever ids and handles hold, a reader
-- finds one statement for each node and one for each edge, with the ids and
-- handles in them, and so two graphs with the same drawing show the same nodes
-- and edges. Main statement: `drawing_faithful`.
import LogicWiring.Proofs.Cycles
import LogicWiring.Proofs.DotReader
import LogicWiring.Proofs.DrawnAlike
import Mathlib

namespace LogicWiring

/-! ## What a drawing says -/

/-- The lines of the label are the id, the settings and the slot. -/
def Node.attributes (n : Node) (slot : Option UInt8) : List Dot.Attribute :=
  [⟨"label", n.id :: n.kind.detail :: (slot.map fun s => "v" ++ s.toNat.repr).toList⟩,
    ⟨"shape", [n.kind.shape]⟩] ++ if n.synthetic then [⟨"style", ["dashed"]⟩] else []

def Node.statement (n : Node) (i : Nat) (slot : Option UInt8) : Dot.Statement :=
  .node ("n" ++ i.repr) (n.attributes slot)

def Link.statement (l : Link) : Dot.Statement :=
  .edge ("n" ++ l.source.repr) ("n" ++ l.target.repr) [⟨"label", [l.handle]⟩]

/-- What is set for the whole drawing. -/
def Dot.settings : List Dot.Statement :=
  [.setting "rankdir" "LR",
    .defaults "node" [⟨"fontname", ["Helvetica"]⟩, ⟨"fontsize", ["10"]⟩],
    .defaults "edge" [⟨"fontname", ["Helvetica"]⟩, ⟨"fontsize", ["9"]⟩]]

/-- The settings, one statement for each node by its place, and one for each edge. -/
def Graph.statements (g : Graph) (slots : Option SlotMap) : List Dot.Statement :=
  Dot.settings ++ (g.nodes.zipIdx.map fun (n, i) => n.statement i (slots.bind (·.get i))) ++
    g.links.map Link.statement

open Dot

theorem spells_settings : Spells ("\n    rankdir=LR;\n" ++
    "    node [fontname=\"Helvetica\", fontsize=10];\n" ++
    "    edge [fontname=\"Helvetica\", fontsize=9];\n\n").toList settings := by
  refine ⟨[[.word "rankdir".toList, .mark '=', .word "LR".toList],
    [.word "node".toList, .mark '[', .word "fontname".toList, .mark '=',
      .quoted "Helvetica".toList, .mark ',', .word "fontsize".toList, .mark '=',
      .word "10".toList, .mark ']'],
    [.word "edge".toList, .mark '[', .word "fontname".toList, .mark '=',
      .quoted "Helvetica".toList, .mark ',', .word "fontsize".toList, .mark '=',
      .word "9".toList, .mark ']']], ?_, by decide, ?_⟩
  · unfold Reads
    decide +kernel
  · decide +kernel

/-! ## Names -/

theorem ofList_name (i : Nat) : String.ofList ('n' :: Nat.toDigits 10 i) = "n" ++ i.repr := by
  apply String.toList_inj.1
  simp

theorem isAlphanum_of_mem_toDigits {c : Char} {i : Nat} (h : c ∈ Nat.toDigits 10 i) :
    c.isAlphanum = true := by
  simp [Char.isAlphanum, isDigit_of_mem_toDigits h]

/-- The name of a node is no keyword. -/
theorem name_not_mem_keywords (i : Nat) : "n" ++ i.repr ∉ ["graph", "node", "edge"] := by
  intro hmem
  simp only [List.mem_cons, List.not_mem_nil, or_false, ← String.toList_inj,
    String.toList_append, Nat.toList_repr] at hmem
  rcases hmem with h | h | h
  · simp at h
  · have hdigits : Nat.toDigits 10 i = ['o', 'd', 'e'] := by simpa using h
    have hmem : 'o' ∈ Nat.toDigits 10 i := by simp [hdigits]
    exact not_mem_toDigits rfl i hmem
  · simp at h

/-- A name goes on as far as its digits. -/
theorem reads_name (i : Nat) :
    Reads (.word ['n']) (Nat.toDigits 10 i) [] (.word ('n' :: Nat.toDigits 10 i)) :=
  reads_word ['n'] fun _ hc => isAlphanum_of_mem_toDigits hc

theorem reads_firstName (i : Nat) :
    Reads .between ("    n".toList ++ Nat.toDigits 10 i) [] (.word ('n' :: Nat.toDigits 10 i)) := by
  have hindent : Reads .between "    n".toList [] (.word ['n']) := rfl
  exact hindent.append (reads_name i)

theorem reads_labelStart (word : List Char) : Reads (.word word) " [label=\"".toList
    [.word word, .mark '[', .word "label".toList, .mark '='] (.quoted []) := rfl

/-! ## Nodes -/

/-- The settings of a node need no escape. -/
theorem NodeKind.plain_detail (k : NodeKind) : Plain k.detail.toList := by
  cases k with
  | input pin => cases pin <;> simp [detail, typeName]
  | output pin => cases pin <;> simp [detail, typeName]
  | gate op fanIn => cases op <;> simp [detail, typeName, GateOp.name]
  | compare comparator =>
    cases comparator <;>
      simp [detail, typeName, Comparator.symbol, toList_escapeLabel, escapeLabelChar]
  | _ => simp [detail, typeName]

/-- The slot as it is written in a label. -/
def slotSuffix (slot : Option UInt8) : String := slot.elim "" fun s => "\\nv" ++ s.toNat.repr

/-- The label of a node as it is written between its quotes. -/
def Node.label (n : Node) (slot : Option UInt8) : String :=
  escapeLabel n.id ++ ("\\n" ++ (n.kind.detail ++ slotSuffix slot))

theorem reads_lineEnd (text : List Char) :
    Reads (.quoted text) "\\n".toList [] (.quoted (text ++ "\\n".toList)) := by
  simp [Reads, Place.run, Place.step]

theorem toList_slotSuffix (s : UInt8) :
    (slotSuffix (some s)).toList = "\\n".toList ++ ('v' :: Nat.toDigits 10 s.toNat) := by
  simp [slotSuffix]

theorem plain_number (n : Nat) : Plain ('v' :: Nat.toDigits 10 n) := by simp

theorem reads_slotSuffix (text : List Char) (slot : Option UInt8) :
    Reads (.quoted text) (slotSuffix slot).toList [] (.quoted (text ++ (slotSuffix slot).toList)) := by
  cases slot with
  | none =>
    have hnone : (slotSuffix none).toList = [] := rfl
    rw [hnone, List.append_nil]
    exact .refl _
  | some s =>
    rw [toList_slotSuffix, ← List.append_assoc]
    exact (reads_lineEnd text).append (reads_plain _ (plain_number s.toNat))

/-- The label stays within its quotes. -/
theorem Node.reads_label (n : Node) (slot : Option UInt8) :
    Reads (.quoted []) (n.label slot).toList [] (.quoted (n.label slot).toList) := by
  have hid := reads_escapeLabel [] n.id
  have hdetail := (reads_lineEnd ([] ++ (escapeLabel n.id).toList)).append
    ((reads_plain _ n.kind.plain_detail).append (reads_slotSuffix _ slot))
  simpa only [Node.label, String.toList_append, List.append_assoc, List.append_nil,
    List.nil_append] using hid.append hdetail

theorem linesFrom_slotSuffix (line : List Char) (slot : Option UInt8) :
    linesFrom line (slotSuffix slot).toList =
      String.ofList line :: (slot.map fun s => "v" ++ s.toNat.repr).toList := by
  cases slot with
  | none => rfl
  | some s =>
    have hline : linesFrom [] ('v' :: Nat.toDigits 10 s.toNat) = ["v" ++ s.toNat.repr] := by
      rw [← List.append_nil ('v' :: _), linesFrom_plain [] (plain_number s.toNat), linesFrom,
        List.nil_append, List.cons.injEq, ← String.toList_inj]
      simp
    rw [toList_slotSuffix]
    exact congrArg (String.ofList line :: ·) hline

theorem Node.linesFrom_label (n : Node) (slot : Option UInt8) :
    linesFrom [] (n.label slot).toList =
      n.id :: n.kind.detail :: (slot.map fun s => "v" ++ s.toNat.repr).toList := by
  have hlater : linesFrom n.id.toList ("\\n".toList ++
      (n.kind.detail.toList ++ (slotSuffix slot).toList)) =
        String.ofList n.id.toList ::
          linesFrom [] (n.kind.detail.toList ++ (slotSuffix slot).toList) := rfl
  unfold Node.label
  rw [String.toList_append, String.toList_append, String.toList_append, linesFrom_escapeLabel,
    List.nil_append, hlater, linesFrom_plain [] n.kind.plain_detail, List.nil_append,
    linesFrom_slotSuffix, String.ofList_toList, String.ofList_toList]

/-- The shape of a node is one word. -/
theorem NodeKind.reads_shape (k : NodeKind) :
    Reads .between k.shape.toList [] (.word k.shape.toList) := by
  have hshape : k.shape = "invhouse" ∨ k.shape = "house" ∨ k.shape = "box" := by
    cases k <;> simp [shape]
  rcases hshape with h | h | h
  · rw [h]
    rfl
  · rw [h]
    rfl
  · rw [h]
    rfl

/-- The tokens of the attribute that makes a node dashed. -/
def Node.styleTokens (n : Node) : List Token :=
  if n.synthetic then [.mark ',', .word "style".toList, .mark '=', .word "dashed".toList] else []

/-- The tokens of the statement for a node, without the semicolon. -/
def Node.tokens (n : Node) (i : Nat) (slot : Option UInt8) : List Token :=
  .word ('n' :: Nat.toDigits 10 i) :: .mark '[' :: .word "label".toList :: .mark '=' ::
    .quoted (n.label slot).toList :: .mark ',' :: .word "shape".toList :: .mark '=' ::
    .word n.kind.shape.toList :: (n.styleTokens ++ [Token.mark ']'])

theorem Node.toList_drawing (n : Node) (i : Nat) (slot : Option UInt8) :
    (n.drawing i slot).toList = ("    n".toList ++ Nat.toDigits 10 i) ++
      (" [label=\"".toList ++ ((n.label slot).toList ++ ("\", shape=".toList ++
        n.kind.shape.toList))) ++
      ((if n.synthetic then ", style=dashed" else "").toList ++ "];\n".toList) := by
  unfold Node.drawing Node.label slotSuffix
  rw [← Nat.toList_repr]
  simp only [String.toList_append, List.append_assoc]

theorem Node.reads_drawing (n : Node) (i : Nat) (slot : Option UInt8) :
    Reads .between (n.drawing i slot).toList (n.tokens i slot ++ [Token.mark ';']) .between := by
  have hclose : ∀ text, Reads (.quoted text) "\", shape=".toList
      [.quoted text, .mark ',', .word "shape".toList, .mark '='] .between := fun _ => rfl
  have hstyle : ∀ word, Reads (.word word) ", style=dashed".toList
      [.word word, .mark ',', .word "style".toList, .mark '='] (.word "dashed".toList) :=
    fun _ => rfl
  have hend : ∀ word, Reads (.word word) "];\n".toList [.word word, .mark ']', .mark ';'] .between :=
    fun _ => rfl
  have hlabel := (reads_firstName i).append ((reads_labelStart _).append
    ((n.reads_label slot).append ((hclose _).append n.kind.reads_shape)))
  rw [Node.toList_drawing]
  unfold Node.tokens Node.styleTokens
  cases n.synthetic with
  | true => exact hlabel.append ((hstyle _).append (hend _))
  | false => exact hlabel.append (hend _)

theorem readStatement?_node {name : List Char} {rest : List Token} {attributes : List Attribute}
    (hname : String.ofList name ∉ ["graph", "node", "edge"])
    (h : readAttributes? rest = some attributes) :
    readStatement? (.word name :: .mark '[' :: rest) =
      some (.node (String.ofList name) attributes) := by
  simp only [readStatement?, h, Option.bind_eq_bind, Option.bind_some, if_neg hname]
  rfl

theorem readAttributes?_last {value : Token} {lines : List String} (name : String)
    (h : readValue? value = some lines) :
    readAttributes? [.word name.toList, .mark '=', value, .mark ']'] = some [⟨name, lines⟩] := by
  simp only [readAttributes?, h, String.ofList_toList]
  rfl

theorem readAttributes?_cons {value : Token} {lines : List String} {rest : List Token}
    {attributes : List Attribute} (name : String) (h : readValue? value = some lines)
    (hrest : readAttributes? rest = some attributes) :
    readAttributes? (.word name.toList :: .mark '=' :: value :: .mark ',' :: rest) =
      some (⟨name, lines⟩ :: attributes) := by
  simp only [readAttributes?, h, hrest, String.ofList_toList]
  rfl

theorem Node.readStatement?_tokens (n : Node) (i : Nat) (slot : Option UInt8) :
    readStatement? (n.tokens i slot) = some (n.statement i slot) := by
  have hname : String.ofList ('n' :: Nat.toDigits 10 i) ∉ ["graph", "node", "edge"] := by
    rw [ofList_name]
    exact name_not_mem_keywords i
  have hlabel : readValue? (.quoted (n.label slot).toList) =
      some (n.id :: n.kind.detail :: (slot.map fun s => "v" ++ s.toNat.repr).toList) :=
    congrArg some (n.linesFrom_label slot)
  have hshape : readValue? (.word n.kind.shape.toList) = some [n.kind.shape] := by
    rw [readValue?, String.ofList_toList]
  rw [Node.statement, ← ofList_name]
  apply readStatement?_node hname
  unfold Node.attributes Node.styleTokens
  cases n.synthetic with
  | true =>
    exact readAttributes?_cons "label" hlabel
      (readAttributes?_cons "shape" hshape (readAttributes?_last "style" rfl))
  | false => exact readAttributes?_cons "label" hlabel (readAttributes?_last "shape" hshape)

theorem spells_node (n : Node) (i : Nat) (slot : Option UInt8) :
    Spells (n.drawing i slot).toList [n.statement i slot] := by
  apply Spells.single (n.reads_drawing i slot) _ (n.readStatement?_tokens i slot)
  unfold Node.tokens Node.styleTokens
  cases n.synthetic <;> simp

/-! ## Edges -/

/-- The tokens of the statement for an edge, without the semicolon. -/
def Link.tokens (l : Link) : List Token :=
  [.word ('n' :: Nat.toDigits 10 l.source), .mark '-', .mark '>',
    .word ('n' :: Nat.toDigits 10 l.target), .mark '[', .word "label".toList, .mark '=',
    .quoted (escapeLabel l.handle).toList, .mark ']']

theorem Link.toList_drawing (l : Link) : l.drawing.toList =
    ("    n".toList ++ Nat.toDigits 10 l.source) ++ (" -> n".toList ++ (Nat.toDigits 10 l.target ++
      (" [label=\"".toList ++ ((escapeLabel l.handle).toList ++ "\"];\n".toList)))) := by
  unfold Link.drawing
  rw [← Nat.toList_repr, ← Nat.toList_repr]
  simp only [String.toList_append, List.append_assoc]

theorem Link.reads_drawing (l : Link) :
    Reads .between l.drawing.toList (l.tokens ++ [Token.mark ';']) .between := by
  have harrow : ∀ word, Reads (.word word) " -> n".toList [.word word, .mark '-', .mark '>']
      (.word ['n']) := fun _ => rfl
  have hlabel : Reads (.quoted []) (escapeLabel l.handle).toList []
      (.quoted (escapeLabel l.handle).toList) := by
    simpa only [List.nil_append] using reads_escapeLabel [] l.handle
  have hend : ∀ text, Reads (.quoted text) "\"];\n".toList [.quoted text, .mark ']', .mark ';']
      .between := fun _ => rfl
  rw [Link.toList_drawing]
  unfold Link.tokens
  exact (reads_firstName l.source).append ((harrow _).append ((reads_name l.target).append
    ((reads_labelStart _).append (hlabel.append (hend _)))))

theorem Link.readStatement?_tokens (l : Link) : readStatement? l.tokens = some l.statement := by
  have hlines : readValue? (.quoted (escapeLabel l.handle).toList) = some [l.handle] := by
    have h := linesFrom_escapeLabel [] l.handle []
    rw [List.append_nil, List.nil_append] at h
    rw [readValue?, h, linesFrom, String.ofList_toList]
  have hattributes := readAttributes?_last "label" hlines
  unfold Link.tokens Link.statement
  rw [← ofList_name, ← ofList_name, readStatement?]
  simp only [hattributes]
  rfl

theorem spells_link (l : Link) : Spells l.drawing.toList [l.statement] := by
  apply Spells.single l.reads_drawing _ l.readStatement?_tokens
  simp [Link.tokens]

/-! ## The whole drawing -/

theorem readDrawing?_drawing (g : Graph) (slots : Option SlotMap) :
    readDrawing? (g.drawing slots) = some (g.statements slots) := by
  have hnodes : Spells (String.join (g.nodes.zipIdx.map fun (n, i) =>
      n.drawing i (slots.bind (·.get i)))).toList
      (g.nodes.zipIdx.map fun (n, i) => n.statement i (slots.bind (·.get i))) := by
    apply Spells.join
    intro (n, i)
    exact spells_node n i _
  have hgap : Spells (if g.links.isEmpty then "" else "\n").toList [] := by
    split
    · exact .nil
    · exact .blank rfl
  have hlinks : Spells (String.join (g.links.map Link.drawing)).toList
      (g.links.map Link.statement) := Spells.join g.links spells_link
  have hopening : Reads .between "digraph logic \x7b".toList
      [.word "digraph".toList, .word "logic".toList, .mark '\x7b'] .between := rfl
  have hclosing : Reads .between "\x7d\n".toList [.mark '\x7d'] .between := rfl
  have hall := (spells_settings.append hnodes).append (hgap.append hlinks)
  apply hall.readDrawing _ hopening hclosing
  unfold Graph.drawing
  simp only [String.toList_append, List.append_assoc]
  rfl

/-! ## What a drawing determines -/

/-- What the drawing of a node shows of it. -/
structure Node.Shown where
  id : String
  typeName : String
  synthetic : Bool
  slot : Option UInt8
  deriving DecidableEq, Repr

def Node.shown (n : Node) (slot : Option UInt8) : Node.Shown where
  id := n.id
  typeName := n.kind.typeName
  synthetic := n.synthetic
  slot := slot

/-- The nodes with the slots that a drawing gives them, in node order. -/
def Graph.shownNodes (g : Graph) (slots : Option SlotMap) : List Node.Shown :=
  g.nodes.zipIdx.map fun (n, i) => n.shown (slots.bind (·.get i))

/-- The two ends of an edge and the handle it ends at. -/
def Graph.shownEdges (g : Graph) : List (String × String × String) :=
  g.edges.map fun e => (e.source, e.target, e.targetHandle)

namespace Dot

/-- The node a statement is about. Its type name is the first word of the second line. -/
def Statement.node? : Statement → Option Node.Shown
  | .node _ (⟨_, id :: detail :: slot⟩ :: _ :: style) => some {
      id := id
      typeName := String.ofList (detail.toList.takeWhile (· ≠ ' '))
      synthetic := !style.isEmpty
      slot := (slot.flatMap fun line => numbersIn line.toList).head?.map UInt8.ofNat }
  | _ => none

/-- The edge a statement is about. The numbers in the names are its ends. -/
def Statement.link? : Statement → Option Link
  | .edge source target [⟨_, [handle]⟩] => do
    let source ← (numbersIn source.toList).head?
    let target ← (numbersIn target.toList).head?
    return { source, target, handle }
  | _ => none

end Dot

/-- No type name has a blank, and the settings stand behind one. -/
theorem NodeKind.takeWhile_detail (k : NodeKind) :
    k.detail.toList.takeWhile (· ≠ ' ') = k.typeName.toList := by
  cases k with
  | input pin => cases pin <;> simp [detail, typeName]
  | output pin => cases pin <;> simp [detail, typeName]
  | gate op fanIn => cases op <;> simp [detail, typeName, GateOp.name]
  | _ => simp [detail, typeName]

theorem Node.node?_statement (n : Node) (i : Nat) (slot : Option UInt8) :
    (n.statement i slot).node? = some (n.shown slot) := by
  have hslot : ((slot.map fun s => "v" ++ s.toNat.repr).toList.flatMap fun line =>
      numbersIn line.toList).head?.map UInt8.ofNat = slot := by
    cases slot <;> simp
  have hstyle : (if n.synthetic then [(⟨"style", ["dashed"]⟩ : Attribute)] else []).isEmpty =
      !n.synthetic := by
    cases n.synthetic <;> rfl
  simp only [Node.statement, Node.attributes, Node.shown, List.cons_append, List.nil_append,
    Statement.node?, n.kind.takeWhile_detail, String.ofList_toList, hslot, hstyle, Bool.not_not]

theorem Link.link?_statement (l : Link) : l.statement.link? = some l := by
  simp [Link.statement, Statement.link?]

/-- What can be told from the statements of nodes comes first, then what can be from those of
edges. -/
theorem Graph.filterMap_statements {α : Type} {f : Statement → Option α}
    (hsettings : settings.filterMap f = []) (g : Graph) (slots : Option SlotMap) :
    (g.statements slots).filterMap f =
      (g.nodes.zipIdx.filterMap fun (n, i) => f (n.statement i (slots.bind (·.get i)))) ++
        g.links.filterMap fun l => f l.statement := by
  rw [Graph.statements, List.filterMap_append, List.filterMap_append, hsettings,
    List.filterMap_map, List.filterMap_map]
  rfl

theorem Graph.filterMap_node? (g : Graph) (slots : Option SlotMap) :
    (g.statements slots).filterMap Statement.node? = g.shownNodes slots := by
  have hlinks : (g.links.filterMap fun l => l.statement.node?) = [] := by
    rw [List.filterMap_eq_nil_iff]
    exact fun l _ => rfl
  rw [Graph.filterMap_statements rfl, hlinks, List.append_nil, Graph.shownNodes]
  simp only [Node.node?_statement, List.filterMap_eq_map']

theorem Graph.filterMap_link? (g : Graph) (slots : Option SlotMap) :
    (g.statements slots).filterMap Statement.link? = g.links := by
  have hnodes : (g.nodes.zipIdx.filterMap fun (n, i) =>
      (n.statement i (slots.bind (·.get i))).link?) = [] := by
    rw [List.filterMap_eq_nil_iff]
    exact fun (n, i) _ => rfl
  rw [Graph.filterMap_statements rfl, hnodes, List.nil_append]
  simp only [Link.link?_statement, List.filterMap_some]

theorem Graph.ids_eq_map_shown (g : Graph) (slots : Option SlotMap) :
    g.ids = (g.shownNodes slots).map Node.Shown.id := by
  have hid : g.ids = (g.nodes.zipIdx.map Prod.fst).map Node.id := by
    rw [List.zipIdx_map_fst, Graph.ids]
  rw [hid, Graph.shownNodes, List.map_map, List.map_map]
  rfl

/-- The ends of a link lead back to the ids of the edge. -/
theorem Graph.shownEdges_eq (g : Graph) :
    g.shownEdges = g.links.map fun l => (g.idAt l.source, g.idAt l.target, l.handle) := by
  unfold Graph.shownEdges
  rw [g.links_eq, List.map_map]
  apply List.map_congr_left
  intro e he
  have hknown := g.ends_known e he
  have hsource := Graph.idAt_index hknown.1
  have htarget := Graph.idAt_index hknown.2
  unfold Graph.index at hsource htarget
  simp only [Function.comp_apply, Edge.link, hsource, htarget]

/-- For any graph, with slots or without, a reader of the drawing finds the statements of the graph
and nothing else. Graphs with the same drawing have the same ids, type names, synthetic nodes,
slots, ends of edges and handles. -/
theorem drawing_faithful :
    (∀ (g : Graph) (slots : Option SlotMap), readDrawing? (g.drawing slots) = some (g.statements slots)) ∧
    ∀ (g g' : Graph) (slots slots' : Option SlotMap), g.drawing slots = g'.drawing slots' →
      g.shownNodes slots = g'.shownNodes slots' ∧ g.shownEdges = g'.shownEdges ∧
      g.links = g'.links := by
  refine ⟨readDrawing?_drawing, ?_⟩
  intro g g' slots slots' h
  have hread := congrArg readDrawing? h
  rw [readDrawing?_drawing, readDrawing?_drawing, Option.some.injEq] at hread
  have hnodes := congrArg (List.filterMap Statement.node?) hread
  have hlinks := congrArg (List.filterMap Statement.link?) hread
  rw [Graph.filterMap_node?, Graph.filterMap_node?] at hnodes
  rw [Graph.filterMap_link?, Graph.filterMap_link?] at hlinks
  have hids : g.ids = g'.ids := by
    rw [g.ids_eq_map_shown slots, g'.ids_eq_map_shown slots', hnodes]
  refine ⟨hnodes, ?_, hlinks⟩
  rw [g.shownEdges_eq, g'.shownEdges_eq, hlinks, Graph.idAt_eq_of_ids hids]

/-- An id that closes its quotes, one that is a backslash, and one that looks like more lines. -/
def hostile : Graph where
  nodes := [{ id := "a\"];", kind := .input (some 2) },
    { id := "\\", kind := .gate .and 2, synthetic := true },
    { id := "o\\nv1\n", kind := .output none }]
  edges := [{ source := "a\"];", target := "\\", targetHandle := "in0" },
    { source := "\\", target := "o\\nv1\n", targetHandle := "\"\\\"" }]
  ids_nodup := by decide
  ends_known := by decide

/-- The same with three wires noted at the gate, and with another handle where a wire starts. -/
def hostileAgain : Graph where
  nodes := [{ id := "a\"];", kind := .input (some 2) },
    { id := "\\", kind := .gate .and 3, synthetic := true },
    { id := "o\\nv1\n", kind := .output none }]
  edges := [{ source := "a\"];", sourceHandle := "q", target := "\\", targetHandle := "in0" },
    { source := "\\", target := "o\\nv1\n", targetHandle := "\"\\\"" }]
  ids_nodup := by decide
  ends_known := by decide

def hostileSlots : SlotMap where
  slots := [some 0, some 1, none]
  count := 2

theorem hostile_shown :
    hostile.drawing (some hostileSlots) = hostileAgain.drawing (some hostileSlots) ∧
    hostileAgain.shownNodes (some hostileSlots) =
      [⟨"a\"];", "input", false, some 0⟩, ⟨"\\", "AND", true, some 1⟩,
        ⟨"o\\nv1\n", "output", false, none⟩] ∧
    hostileAgain.shownEdges = [("a\"];", "\\", "in0"),
      ("\\", "o\\nv1\n", "\"\\\"")] := by
  have hdrawing : hostile.drawing (some hostileSlots) = hostileAgain.drawing (some hostileSlots) := by
    decide +kernel
  obtain ⟨hnodes, hedges, -⟩ := drawing_faithful.2 _ _ _ _ hdrawing
  refine ⟨hdrawing, ?_, ?_⟩
  · rw [← hnodes]
    rfl
  · rw [← hedges]
    rfl

end LogicWiring
