-- Writing a project document: every member that has a value, in a fixed order.
import LogicWiring.Document
import LogicWiring.Json.Value

namespace LogicWiring

open Json

/-- A member that is left out if it has no value. -/
def optionalMember {α : Type} (name : String) (value : α → Value) (a : Option α) :
    List (String × Value) :=
  match a with
  | none => []
  | some a => [(name, value a)]

def word32Value (n : UInt32) : Value := .natural n.toNat

def PinSetting.toValue : PinSetting → Value
  | number n => .natural n.toNat
  | label s => .text s

def InitialSetting.toValue : InitialSetting → Value
  | flag b => .flag b
  | level n => word32Value n

def NodeSettings.toValue (s : NodeSettings) : Value :=
  .record (
    optionalMember "pin" PinSetting.toValue s.pin ++
    optionalMember "inputs" word32Value s.inputs ++
    optionalMember "min" word32Value s.min ++
    optionalMember "max" word32Value s.max ++
    optionalMember "operator" Value.text s.operator ++
    optionalMember "pulseMs" word32Value s.pulseMs ++
    optionalMember "intervalMs" word32Value s.intervalMs ++
    optionalMember "initialState" InitialSetting.toValue s.initialState ++
    optionalMember "outputWidth" word32Value s.outputWidth)

def NodeEntry.toValue (n : NodeEntry) : Value :=
  .record [("id", .text n.id), ("type", .text n.type), ("data", n.settings.toValue)]

def EdgeEntry.toValue (e : EdgeEntry) : Value :=
  .record (optionalMember "id" Value.text e.id ++
    [("source", .text e.source), ("sourceHandle", .text e.sourceHandle),
     ("target", .text e.target), ("targetHandle", .text e.targetHandle)])

def Document.toValue (d : Document) : Value :=
  .record ([("nodes", .list (d.nodes.map NodeEntry.toValue)),
    ("edges", .list (d.edges.map EdgeEntry.toValue))] ++
    optionalMember "board" Value.text d.board)

/-- The text of a document. -/
def Document.toText (d : Document) : String := d.toValue.render

end LogicWiring
