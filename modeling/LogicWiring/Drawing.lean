-- A graph as a drawing in the DOT format: a box for each node with its id,
-- its kind and its slot, and an arrow for each edge with its handle.
import LogicWiring.Slots

namespace LogicWiring

/-! ## Labels -/

/-- The characters with a text in place of each one that is `old`. -/
def replaceChar (old : Char) (new cs : List Char) : List Char :=
  cs.flatMap fun c => if c = old then new else [c]

/-- The text of a quoted label: backslashes take a backslash before them, and then quotes do. -/
def escapeLabel (s : String) : String :=
  String.ofList (replaceChar '"' ['\\', '"'] (replaceChar '\\' ['\\', '\\'] s.toList))

/-- A character of a quoted label. -/
def escapeLabelChar : Char → List Char
  | '\\' => ['\\', '\\']
  | '"' => ['\\', '"']
  | c => [c]

/-- Both replacements together change each character on its own, since the first one puts no
quote in. -/
theorem toList_escapeLabel (s : String) :
    (escapeLabel s).toList = s.toList.flatMap escapeLabelChar := by
  rw [escapeLabel, String.toList_ofList, replaceChar, replaceChar, List.flatMap_assoc]
  congr 1
  funext c
  by_cases hslash : c = '\\'
  · subst hslash
    rfl
  · by_cases hquote : c = '"'
    · subst hquote
      rfl
    · simp [escapeLabelChar, hslash, hquote]

/-! ## Drawings -/

/-- The kind of a node with the settings that matter in a drawing. -/
def NodeKind.detail (k : NodeKind) : String :=
  match k with
  | .input pin | .output pin =>
    k.typeName ++ pin.elim " (no pin)" fun p => " pin " ++ p.toNat.repr
  | .range min max => k.typeName ++ " [" ++ min.toNat.repr ++ ", " ++ max.toNat.repr ++ "]"
  | .compare comparator => k.typeName ++ " " ++ escapeLabel comparator.symbol
  | .pulse length interval =>
    k.typeName ++ " " ++ length.toNat.repr ++ "/" ++ interval.toNat.repr ++ "ms"
  | _ => k.typeName

def NodeKind.shape : NodeKind → String
  | .input _ => "invhouse"
  | .output _ => "house"
  | _ => "box"

/-- Synthetic nodes are dashed. The lines of a label are parted by a backslash and an n. -/
def Node.drawing (n : Node) (i : Nat) (slot : Option UInt8) : String :=
  "    n" ++ i.repr ++ " [label=\"" ++ escapeLabel n.id ++ "\\n" ++ n.kind.detail ++
    slot.elim "" (fun s => "\\nv" ++ s.toNat.repr) ++ "\", shape=" ++ n.kind.shape ++
    (if n.synthetic then ", style=dashed" else "") ++ "];\n"

def Link.drawing (l : Link) : String :=
  "    n" ++ l.source.repr ++ " -> n" ++ l.target.repr ++ " [label=\"" ++ escapeLabel l.handle ++
    "\"];\n"

/-- The drawing of a graph, with the slots of a slot map if there is one. -/
def Graph.drawing (g : Graph) (slots : Option SlotMap) : String :=
  "digraph logic \x7b\n    rankdir=LR;\n" ++
    "    node [fontname=\"Helvetica\", fontsize=10];\n" ++
    "    edge [fontname=\"Helvetica\", fontsize=9];\n\n" ++
    String.join (g.nodes.zipIdx.map fun (n, i) => n.drawing i (slots.bind (·.get i))) ++
    (if g.links.isEmpty then "" else "\n") ++
    String.join (g.links.map Link.drawing) ++ "\x7d\n"

end LogicWiring
