-- The project document as the editor saves it. What the editor keeps for
-- itself, such as positions, is not part of it.

namespace LogicWiring

/-- A pin is given by its number or by a label. -/
inductive PinSetting
  | number (n : UInt64)
  | label (s : String)
  deriving DecidableEq, Repr

/-- A start value is given as on or off, or as a number. -/
inductive InitialSetting
  | flag (b : Bool)
  | level (n : UInt32)
  deriving DecidableEq, Repr

def InitialSetting.value : InitialSetting → UInt32
  | flag b => if b then 1 else 0
  | level n => n

/-- The settings of a node. Which of them matter depends on its type. -/
structure NodeSettings where
  pin : Option PinSetting := none
  inputs : Option UInt32 := none
  min : Option UInt32 := none
  max : Option UInt32 := none
  operator : Option String := none
  pulseMs : Option UInt32 := none
  intervalMs : Option UInt32 := none
  initialState : Option InitialSetting := none
  outputWidth : Option UInt32 := none
  deriving DecidableEq, Repr

structure NodeEntry where
  id : String
  type : String
  settings : NodeSettings := {}
  deriving DecidableEq, Repr

structure EdgeEntry where
  id : Option String := none
  source : String
  sourceHandle : String := "out"
  target : String
  targetHandle : String := "in"
  deriving DecidableEq, Repr

structure Document where
  nodes : List NodeEntry
  edges : List EdgeEntry := []
  board : Option String := none
  deriving DecidableEq, Repr

end LogicWiring
