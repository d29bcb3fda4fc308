-- Reading a project document from its text.
import LogicWiring.Document
import LogicWiring.Json.Record

namespace LogicWiring

open Json

/-- How deep arrays and objects may stand in a value that is kept whole. With the four
around it, the document, its nodes, the node and its settings, that is one below 128. -/
def keptDepth : Nat := 123

/-- A pin or a start value is kept whole before it is judged. -/
def readKept {α : Type} (judge : Tree → Option α) (t : Tree) : Except Fault α :=
  match t.valueFault keptDepth with
  | some f => .error f
  | none =>
    match judge t with
    | some a => .ok a
    | none => .error .mismatch

def PinSetting.ofTree? : Tree → Option PinSetting
  | .number r =>
    match r.value with
    | .ok (.natural n) => some (.number n)
    | _ => none
  | .text r =>
    match r.value with
    | .ok s => some (.label s)
    | _ => none
  | _ => none

def InitialSetting.ofTree? : Tree → Option InitialSetting
  | .flag b => some (.flag b)
  | .number r =>
    match r.value with
    | .ok (.natural n) => if n.toNat < UInt32.size then some (.level n.toUInt32) else none
    | _ => none
  | _ => none

/-! ## Records -/

def NodeSettings.setField (name : String) (t : Tree) (s : NodeSettings) :
    Except Fault NodeSettings :=
  match name with
  | "pin" => do return { s with pin := ← t.readOptional (readKept PinSetting.ofTree?) }
  | "inputs" => do return { s with inputs := ← t.readOptional Tree.readWord32 }
  | "min" => do return { s with min := ← t.readOptional Tree.readWord32 }
  | "max" => do return { s with max := ← t.readOptional Tree.readWord32 }
  | "operator" => do return { s with operator := ← t.readOptional Tree.readText }
  | "pulseMs" => do return { s with pulseMs := ← t.readOptional Tree.readWord32 }
  | "intervalMs" => do return { s with intervalMs := ← t.readOptional Tree.readWord32 }
  | "initialState" => do
    return { s with initialState := ← t.readOptional (readKept InitialSetting.ofTree?) }
  | "outputWidth" => do return { s with outputWidth := ← t.readOptional Tree.readWord32 }
  | _ => .ok s

def NodeSettings.form : Record NodeSettings where
  fields := ["pin", "inputs", "min", "max", "operator", "pulseMs", "intervalMs", "initialState",
    "outputWidth"]
  required := []
  blank := {}
  set := NodeSettings.setField

def NodeEntry.setField (name : String) (t : Tree) (n : NodeEntry) : Except Fault NodeEntry :=
  match name with
  | "id" => do return { n with id := ← t.readText }
  | "type" => do return { n with type := ← t.readText }
  | "data" => do return { n with settings := ← NodeSettings.form.read t }
  | _ => .ok n

def NodeEntry.form : Record NodeEntry where
  fields := ["id", "type", "data"]
  required := ["id", "type"]
  blank := { id := "", type := "" }
  set := NodeEntry.setField

def EdgeEntry.setField (name : String) (t : Tree) (e : EdgeEntry) : Except Fault EdgeEntry :=
  match name with
  | "id" => do return { e with id := ← t.readOptional Tree.readText }
  | "source" => do return { e with source := ← t.readText }
  | "sourceHandle" => do return { e with sourceHandle := ← t.readText }
  | "target" => do return { e with target := ← t.readText }
  | "targetHandle" => do return { e with targetHandle := ← t.readText }
  | _ => .ok e

def EdgeEntry.form : Record EdgeEntry where
  fields := ["id", "source", "sourceHandle", "target", "targetHandle"]
  required := ["source", "target"]
  blank := { source := "", target := "" }
  set := EdgeEntry.setField

def Document.setField (name : String) (t : Tree) (d : Document) : Except Fault Document :=
  match name with
  | "nodes" => do return { d with nodes := ← t.readList NodeEntry.form.read }
  | "edges" => do return { d with edges := ← t.readList EdgeEntry.form.read }
  | "board" => do return { d with board := ← t.readOptional Tree.readText }
  | _ => .ok d

def Document.form : Record Document where
  fields := ["nodes", "edges", "board"]
  required := ["nodes"]
  blank := { nodes := [] }
  set := Document.setField

/-- The document that a text holds. Nothing but space may follow it. -/
def Document.ofText (text : String) : Except Fault Document := do
  let (t, followed) := treeOf text
  let d ← Document.form.read t
  if followed then .error .malformed else .ok d

end LogicWiring
