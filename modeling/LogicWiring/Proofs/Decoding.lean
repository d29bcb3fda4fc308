-- Bytes that were written as instructions read back as those instructions,
-- provided that each has as many operands as its opcode asks for.
import LogicWiring.Instruction

namespace LogicWiring

/-- The instruction has as many operands as its opcode asks for. -/
def Instruction.Fits (i : Instruction) : Prop :=
  i.opcode.operandSize i.operands = i.operands.length

/-- Instructions in a row, each with the place of its first byte. -/
def placeFrom (offset : Nat) : List Instruction → List PlacedInstruction
  | [] => []
  | i :: rest => { i with offset } :: placeFrom (offset + i.size) rest

theorem map_toInstruction_placeFrom (offset : Nat) (is : List Instruction) :
    (placeFrom offset is).map PlacedInstruction.toInstruction = is := by
  induction is generalizing offset with
  | nil => rfl
  | cons i rest ih => simp [placeFrom, ih]

/-- What follows the operands does not change how many there are: a count is the first of
them. -/
theorem operandSize_append {op : Opcode} {operands : List UInt8} (rest : List UInt8)
    (h : op.operandSize operands = operands.length) :
    op.operandSize (operands ++ rest) = operands.length := by
  unfold Opcode.operandSize at h ⊢
  split
  · rename_i size hl
    simpa [hl] using h
  · rename_i hl
    cases operands with
    | nil => simp [hl] at h
    | cons count operands => simpa [hl] using h

theorem encode_append (is js : List Instruction) : encode (is ++ js) = encode is ++ encode js :=
  List.flatMap_append

theorem length_encode_cons (i : Instruction) (rest : List Instruction) :
    (encode (i :: rest)).length = i.size + (encode rest).length := by
  simp only [encode, List.flatMap_cons, List.length_append, Instruction.bytes, Instruction.size,
    List.length_cons]
  omega

/-- What follows the instructions is read on its own, from the place where they end. -/
theorem decodeFrom_encode_append {is : List Instruction} (h : ∀ i ∈ is, i.Fits) (offset : Nat)
    (rest : List UInt8) :
    decodeFrom offset (encode is ++ rest) =
      (decodeFrom (offset + (encode is).length) rest).map (placeFrom offset is ++ ·) := by
  induction is generalizing offset with
  | nil =>
    simp only [encode, List.flatMap_nil, List.nil_append, List.length_nil, Nat.add_zero, placeFrom]
    cases decodeFrom offset rest <;> rfl
  | cons i is ih =>
    have hfits : i.Fits := h i (by simp)
    have hbytes : encode (i :: is) ++ rest =
        i.opcode.byte :: (i.operands ++ (encode is ++ rest)) := by
      simp [encode, Instruction.bytes]
    have hlater := ih (fun j hj => h j (by simp [hj])) (offset + i.size)
    rw [hbytes, decodeFrom, Opcode.ofByte?_byte]
    simp only [operandSize_append (encode is ++ rest) hfits, List.length_append, List.drop_left,
      List.take_left]
    rw [if_neg (by omega), length_encode_cons, Nat.add_assoc, ← Instruction.size, hlater,
      ← Nat.add_assoc]
    cases decodeFrom (offset + i.size + (encode is).length) rest <;> rfl

theorem decodeFrom_encode {is : List Instruction} (h : ∀ i ∈ is, i.Fits) (offset : Nat) :
    decodeFrom offset (encode is) = .ok (placeFrom offset is) := by
  have hall := decodeFrom_encode_append h offset []
  rw [List.append_nil, decodeFrom] at hall
  rw [hall]
  exact congrArg Except.ok (List.append_nil _)

end LogicWiring
