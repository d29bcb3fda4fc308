-- A program as text: a line for each instruction, with its offset, its
-- mnemonic and its operands.
import LogicWiring.Instruction
import LogicWiring.Text.Decimal

namespace LogicWiring

/-- The text of a slot operand. -/
def slotText (b : UInt8) : String := "v" ++ b.toNat.repr

def pinText (b : UInt8) : String := "pin " ++ b.toNat.repr

/-- The number in two bytes, the low byte first. -/
def wordOf (lo hi : UInt8) : Nat := lo.toNat + 256 * hi.toNat

/-- A reset that is not wired shows as a dash. -/
def resetText (b : UInt8) : String := if b = 255 then "-" else slotText b

/-- The text of the operands. Operands that do not fit the opcode have none. -/
def Instruction.operandText (i : Instruction) : String :=
  match i.opcode, i.operands with
  | .setPinModeInput, [pin] | .setPinModeOutput, [pin] => pinText pin
  | .readPin, [pin, out] | .readAnalogPin, [pin, out] => pinText pin ++ " -> " ++ slotText out
  | .writePin, [pin, source] | .writeAnalogPin, [pin, source] =>
    slotText source ++ " -> " ++ pinText pin
  | .not, [input, out] => slotText input ++ " -> " ++ slotText out
  | .and, count :: rest | .or, count :: rest | .nand, count :: rest | .nor, count :: rest
  | .xor, count :: rest =>
    " ".intercalate ((rest.take count.toNat).map slotText) ++ " -> " ++
      slotText (rest[count.toNat]?.getD 0)
  | .latch, [set, reset, out, initial] =>
    "set " ++ slotText set ++ " reset " ++ slotText reset ++ " -> " ++ slotText out ++
      " init " ++ initial.toNat.repr
  | .pulse, [out, l0, l1, i0, i1] =>
    "-> " ++ slotText out ++ " pulse " ++ (wordOf l0 l1).repr ++ "ms every " ++
      (wordOf i0 i1).repr ++ "ms"
  | .toggle, [input, out, initial] =>
    slotText input ++ " -> " ++ slotText out ++ " init " ++ initial.toNat.repr
  | .analogRange, [input, min0, min1, max0, max1, out] =>
    slotText input ++ " in [" ++ (wordOf min0 min1).repr ++ ", " ++ (wordOf max0 max1).repr ++
      "] -> " ++ slotText out
  | .compareGt, [a, b, out] | .compareGe, [a, b, out] | .compareLt, [a, b, out]
  | .compareLe, [a, b, out] | .compareEq, [a, b, out] | .compareNe, [a, b, out] =>
    slotText a ++ " " ++ slotText b ++ " -> " ++ slotText out
  | .shiftRegister, [data, clock, reset, width, initial, out] =>
    "data " ++ slotText data ++ " clock " ++ slotText clock ++ " reset " ++ resetText reset ++
      " width " ++ width.toNat.repr ++ " init " ++ initial.toNat.repr ++ " -> " ++ slotText out
  | .delay, [input, out, d0, d1] =>
    slotText input ++ " -> " ++ slotText out ++ " " ++ (wordOf d0 d1).repr ++ "ms"
  | _, _ => ""

/-- The offset has at least four digits, and the mnemonic fills nineteen columns. -/
def PlacedInstruction.line (i : PlacedInstruction) : String :=
  Decimal.padded 4 i.offset ++ "  " ++ String.ofList (i.opcode.mnemonic.toList.rightpad 19 ' ') ++
    " " ++ i.operandText

def listing (is : List PlacedInstruction) : String :=
  String.join (is.map fun i => i.line ++ "\n")

end LogicWiring
