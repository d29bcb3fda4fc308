-- Why a graph has no program.

namespace LogicWiring

/-- The settings that have to fit into an operand of one or two bytes. -/
inductive OperandField
  | pin | inputCount | pulseLength | interval | min | max | outputWidth | initialState
  deriving DecidableEq, Repr

def OperandField.name : OperandField → String
  | pin => "pin"
  | inputCount => "input count"
  | pulseLength => "pulse length"
  | interval => "interval"
  | min => "min"
  | max => "max"
  | outputWidth => "output width"
  | initialState => "initial state"

inductive CompileError
  | cycle (unplaced : List String)
  | operandRange (node : String) (field : OperandField) (value max : Nat)
  | slotOverflow (count max : Nat)
  deriving DecidableEq, Repr

def CompileError.message : CompileError → String
  | cycle unplaced =>
    "graph contains a cycle; " ++ unplaced.length.repr ++
      " node(s) could not be ordered: " ++ ", ".intercalate unplaced
  | operandRange node field value max =>
    "node '" ++ node ++ "': " ++ field.name ++ " = " ++ value.repr ++
      " does not fit (max " ++ max.repr ++ ")"
  | slotOverflow count max =>
    count.repr ++ " variable slots needed, at most " ++ max.repr ++ " are addressable"

end LogicWiring
