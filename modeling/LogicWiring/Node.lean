-- The nodes of a wiring graph: inputs and outputs on pins, gates, and the
-- timed, analog and storing elements, each with its own settings.
import LogicWiring.Text.Blank

namespace LogicWiring

inductive GateOp
  | and | or | nand | nor | xor
  deriving DecidableEq, Repr

def GateOp.name : GateOp → String
  | .and => "AND"
  | .or => "OR"
  | .nand => "NAND"
  | .nor => "NOR"
  | .xor => "XOR"

/-! ## Comparisons -/

inductive Comparator
  | gt | ge | lt | le | eq | ne
  deriving DecidableEq, Repr

namespace Comparator

def symbol : Comparator → String
  | gt => ">"
  | ge => ">="
  | lt => "<"
  | le => "<="
  | eq => "=="
  | ne => "!="

/-- The comparison that a text stands for, blanks around it aside. -/
def ofSymbol? (s : String) : Option Comparator :=
  match trimBlank s with
  | ">" => some gt
  | ">=" => some ge
  | "≥" => some ge
  | "<" => some lt
  | "<=" => some le
  | "≤" => some le
  | "==" => some eq
  | "=" => some eq
  | "!=" => some ne
  | "≠" => some ne
  | _ => none

end Comparator

/-! ## Kinds -/

/-- What a node does, with the settings of that kind. A pulse is high for `length` of
every `interval` milliseconds. `fanIn` is what the author drew: the wires decide how
many inputs a gate has. -/
inductive NodeKind
  | input (pin : Option UInt32)
  | output (pin : Option UInt32)
  | gate (op : GateOp) (fanIn : UInt32)
  | not
  | latch (initial : Bool)
  | pulse (length interval : UInt32)
  | toggle (initial : Bool)
  | range (min max : UInt32)
  | compare (comparator : Comparator)
  | shift (width initial : UInt32)
  deriving DecidableEq, Repr

namespace NodeKind

/-- A sink takes a value and gives none on. -/
def isSink : NodeKind → Bool
  | output _ => true
  | _ => false

/-- Analog elements need the full reading of a pin, not one bit. -/
def isAnalog : NodeKind → Bool
  | range _ _ => true
  | compare _ => true
  | _ => false

def pin : NodeKind → Option UInt32
  | input pin => pin
  | output pin => pin
  | _ => none

def typeName : NodeKind → String
  | input _ => "input"
  | output _ => "output"
  | gate op _ => op.name
  | not => "NOT"
  | latch _ => "latch"
  | pulse _ _ => "pulse"
  | toggle _ => "toggle"
  | range _ _ => "analog-range"
  | compare _ => "analog-compare"
  | shift _ _ => "shift-register"

end NodeKind

/-- A synthetic node stands for wires that meet; the author did not draw it. -/
structure Node where
  id : String
  kind : NodeKind
  synthetic : Bool := false
  deriving DecidableEq, Repr

end LogicWiring
