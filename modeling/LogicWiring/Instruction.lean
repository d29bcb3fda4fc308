-- Instructions as bytes, and bytes read back as instructions.
import LogicWiring.Opcode

namespace LogicWiring

structure Instruction where
  opcode : Opcode
  operands : List UInt8
  deriving DecidableEq, Repr

namespace Instruction

def bytes (i : Instruction) : List UInt8 := i.opcode.byte :: i.operands

def size (i : Instruction) : Nat := 1 + i.operands.length

end Instruction

/-- The bytes of instructions in a row. -/
def encode (is : List Instruction) : List UInt8 := is.flatMap Instruction.bytes

/-! ## Reading back -/

/-- An instruction and the place of its first byte. -/
structure PlacedInstruction extends Instruction where
  offset : Nat
  deriving DecidableEq, Repr

inductive DecodeError
  | unknownOpcode (offset : Nat) (byte : UInt8)
  | truncated (offset : Nat) (opcode : Opcode) (needed available : Nat)
  deriving DecidableEq, Repr

def DecodeError.message : DecodeError → String
  | unknownOpcode offset byte =>
    "unknown opcode " ++ byte.toNat.repr ++ " at offset " ++ offset.repr
  | truncated offset opcode needed available =>
    opcode.mnemonic ++ " at offset " ++ offset.repr ++ " needs " ++ needed.repr ++
      " operand bytes, " ++ available.repr ++ " left"

/-- The number of operand bytes an opcode asks for, given the bytes that follow it. A
count that is missing asks for one byte, itself. -/
def Opcode.operandSize (op : Opcode) (rest : List UInt8) : Nat :=
  match op.layout with
  | .fixed size => size
  | .counted =>
    match rest with
    | count :: _ => count.toNat + 2
    | [] => 1

/-- The instructions of bytes that start at `offset`. -/
def decodeFrom (offset : Nat) (bytes : List UInt8) :
    Except DecodeError (List PlacedInstruction) :=
  match bytes with
  | [] => .ok []
  | b :: rest =>
    match Opcode.ofByte? b with
    | none => .error (.unknownOpcode offset b)
    | some op =>
      let needed := op.operandSize rest
      if rest.length < needed then .error (.truncated offset op needed rest.length)
      else
        match decodeFrom (offset + 1 + needed) (rest.drop needed) with
        | .error e => .error e
        | .ok later =>
          .ok ({ opcode := op, operands := rest.take needed, offset := offset } :: later)
termination_by bytes.length
decreasing_by
  simp only [List.length_drop, List.length_cons]
  omega

def decode (bytes : List UInt8) : Except DecodeError (List PlacedInstruction) :=
  decodeFrom 0 bytes

end LogicWiring
