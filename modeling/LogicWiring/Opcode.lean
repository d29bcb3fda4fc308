-- The instruction set of the controller. The numbers are a contract with the
-- firmware and never change.
import LogicWiring.Node

namespace LogicWiring

inductive Opcode
  | setPinModeInput | setPinModeOutput
  | readPin | writePin | readAnalogPin | writeAnalogPin
  | not | and | or | nand | nor | xor
  | latch | pulse | toggle | analogRange
  | compareGt | compareGe | compareLt | compareLe | compareEq | compareNe
  | shiftRegister | delay
  deriving DecidableEq, Repr

/-- A fixed number of operand bytes, or a count byte, that many bytes and one more. -/
inductive OperandLayout
  | fixed (size : Nat)
  | counted
  deriving DecidableEq, Repr

namespace Opcode

def all : List Opcode :=
  [setPinModeInput, setPinModeOutput, readPin, writePin, readAnalogPin, writeAnalogPin,
   not, and, or, nand, nor, xor, latch, pulse, toggle, analogRange,
   compareGt, compareGe, compareLt, compareLe, compareEq, compareNe, shiftRegister, delay]

def byte : Opcode → UInt8
  | setPinModeInput => 1
  | setPinModeOutput => 2
  | readPin => 3
  | writePin => 4
  | readAnalogPin => 5
  | writeAnalogPin => 6
  | not => 10
  | and => 11
  | or => 12
  | nand => 13
  | nor => 14
  | xor => 15
  | latch => 16
  | pulse => 17
  | toggle => 18
  | analogRange => 19
  | compareGt => 20
  | compareGe => 21
  | compareLt => 22
  | compareLe => 23
  | compareEq => 24
  | compareNe => 25
  | shiftRegister => 26
  | delay => 30

def ofByte? (b : UInt8) : Option Opcode := all.find? fun op => op.byte = b

theorem ofByte?_byte (op : Opcode) : ofByte? op.byte = some op := by
  cases op <;> decide

theorem byte_of_ofByte? {b : UInt8} {op : Opcode} (h : ofByte? b = some op) : op.byte = b := by
  simpa using List.find?_some h

def mnemonic : Opcode → String
  | setPinModeInput => "SET_PIN_MODE_INPUT"
  | setPinModeOutput => "SET_PIN_MODE_OUTPUT"
  | readPin => "READ_PIN"
  | writePin => "WRITE_PIN"
  | readAnalogPin => "READ_ANALOG_PIN"
  | writeAnalogPin => "WRITE_ANALOG_PIN"
  | not => "NOT"
  | and => "AND"
  | or => "OR"
  | nand => "NAND"
  | nor => "NOR"
  | xor => "XOR"
  | latch => "LATCH"
  | pulse => "PULSE"
  | toggle => "TOGGLE"
  | analogRange => "ANALOG_RANGE"
  | compareGt => "CMP_GT"
  | compareGe => "CMP_GE"
  | compareLt => "CMP_LT"
  | compareLe => "CMP_LE"
  | compareEq => "CMP_EQ"
  | compareNe => "CMP_NE"
  | shiftRegister => "SHIFT_REGISTER"
  | delay => "DELAY"

def layout : Opcode → OperandLayout
  | setPinModeInput | setPinModeOutput => .fixed 1
  | readPin | writePin | readAnalogPin | writeAnalogPin | not => .fixed 2
  | and | or | nand | nor | xor => .counted
  | toggle | compareGt | compareGe | compareLt | compareLe | compareEq | compareNe => .fixed 3
  | latch | delay => .fixed 4
  | pulse => .fixed 5
  | analogRange | shiftRegister => .fixed 6

end Opcode

def GateOp.opcode : GateOp → Opcode
  | .and => .and
  | .or => .or
  | .nand => .nand
  | .nor => .nor
  | .xor => .xor

def Comparator.opcode : Comparator → Opcode
  | .gt => .compareGt
  | .ge => .compareGe
  | .lt => .compareLt
  | .le => .compareLe
  | .eq => .compareEq
  | .ne => .compareNe

end LogicWiring
