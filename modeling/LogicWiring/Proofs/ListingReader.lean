-- The listing of a program, read back. Every operand that a line shows is
-- there, each instruction has a line of its own, and a reader gets the bytes
-- out of the lines again. So the listing keeps all of the program. Main
-- statement: `listing_lossless`.
import LogicWiring.Listing
import LogicWiring.Proofs.InstructionFormat
import LogicWiring.Proofs.TextPieces

namespace LogicWiring

/-! ## Operands by their numbers -/

/-- The text of the operands, each looked up by its number. There is none if one of them is
missing. -/
def Instruction.indexedText? (i : Instruction) : Option String :=
  let o := i.operands
  match i.opcode with
  | .setPinModeInput | .setPinModeOutput => do
    let pin ← o[0]?
    return pinText pin
  | .readPin | .readAnalogPin => do
    let pin ← o[0]?
    let out ← o[1]?
    return pinText pin ++ " -> " ++ slotText out
  | .writePin | .writeAnalogPin => do
    let source ← o[1]?
    let pin ← o[0]?
    return slotText source ++ " -> " ++ pinText pin
  | .not => do
    let input ← o[0]?
    let out ← o[1]?
    return slotText input ++ " -> " ++ slotText out
  | .and | .or | .nand | .nor | .xor => do
    let count ← o[0]?
    let inputs ← (List.range' 1 count.toNat).mapM fun k => o[k]?
    let out ← o[count.toNat + 1]?
    return " ".intercalate (inputs.map slotText) ++ " -> " ++ slotText out
  | .latch => do
    let set ← o[0]?
    let reset ← o[1]?
    let out ← o[2]?
    let initial ← o[3]?
    return "set " ++ slotText set ++ " reset " ++ slotText reset ++ " -> " ++ slotText out ++
      " init " ++ initial.toNat.repr
  | .pulse => do
    let out ← o[0]?
    let l0 ← o[1]?
    let l1 ← o[2]?
    let i0 ← o[3]?
    let i1 ← o[4]?
    return "-> " ++ slotText out ++ " pulse " ++ (wordOf l0 l1).repr ++ "ms every " ++
      (wordOf i0 i1).repr ++ "ms"
  | .toggle => do
    let input ← o[0]?
    let out ← o[1]?
    let initial ← o[2]?
    return slotText input ++ " -> " ++ slotText out ++ " init " ++ initial.toNat.repr
  | .analogRange => do
    let input ← o[0]?
    let min0 ← o[1]?
    let min1 ← o[2]?
    let max0 ← o[3]?
    let max1 ← o[4]?
    let out ← o[5]?
    return slotText input ++ " in [" ++ (wordOf min0 min1).repr ++ ", " ++
      (wordOf max0 max1).repr ++ "] -> " ++ slotText out
  | .compareGt | .compareGe | .compareLt | .compareLe | .compareEq | .compareNe => do
    let a ← o[0]?
    let b ← o[1]?
    let out ← o[2]?
    return slotText a ++ " " ++ slotText b ++ " -> " ++ slotText out
  | .shiftRegister => do
    let reset ← o[2]?
    let data ← o[0]?
    let clock ← o[1]?
    let width ← o[3]?
    let initial ← o[4]?
    let out ← o[5]?
    return "data " ++ slotText data ++ " clock " ++ slotText clock ++ " reset " ++
      resetText reset ++ " width " ++ width.toNat.repr ++ " init " ++ initial.toNat.repr ++
      " -> " ++ slotText out
  | .delay => do
    let input ← o[0]?
    let out ← o[1]?
    let d0 ← o[2]?
    let d1 ← o[3]?
    return slotText input ++ " -> " ++ slotText out ++ " " ++ (wordOf d0 d1).repr ++ "ms"

namespace Instruction

variable {op : Opcode} {operands : List UInt8}

theorem Fits.length_eq {size : Nat} (h : Fits ⟨op, operands⟩) (hop : op.layout = .fixed size) :
    operands.length = size := by
  unfold Fits Opcode.operandSize at h
  simpa [hop] using h.symm

/-- The operands of a gate: the number of inputs, the inputs and the slot of the result. -/
theorem Fits.exists_inputs (h : Fits ⟨op, operands⟩) (hop : op.layout = .counted) :
    ∃ count inputs out, operands = count :: (inputs ++ [out]) ∧ inputs.length = count.toNat := by
  unfold Fits Opcode.operandSize at h
  simp only [hop] at h
  match operands with
  | [] => simp at h
  | count :: rest =>
    rcases List.eq_nil_or_concat rest with rfl | ⟨inputs, out, rfl⟩
    · simp at h
    · rw [List.concat_eq_append] at h ⊢
      exact ⟨count, inputs, out, rfl, by simpa using h.symm⟩

end Instruction

/-- Looking up the values from a place on, one after the other, finds them all. -/
theorem mapM_lookup {f : Nat → Option UInt8} {start : Nat} {values : List UInt8}
    (h : ∀ k < values.length, f (start + k) = values[k]?) :
    (List.range' start values.length).mapM f = some values := by
  induction values generalizing start with
  | nil => rfl
  | cons value values ih =>
    have hfirst : f start = some value := h 0 (by simp)
    have hlater : ∀ k < values.length, f (start + 1 + k) = values[k]? := by
      intro k hk
      rw [Nat.add_assoc, Nat.add_comm 1]
      exact h (k + 1) (by simpa using hk)
    rw [List.length_cons, List.range'_succ, List.mapM_cons, hfirst, ih hlater]
    rfl

/-- The text of a gate with these inputs. -/
theorem operandText_gate {op : Opcode} (hop : op.layout = .counted) {count : UInt8}
    {inputs : List UInt8} (out : UInt8) (hlength : inputs.length = count.toNat) :
    Instruction.operandText ⟨op, count :: (inputs ++ [out])⟩ =
      " ".intercalate (inputs.map slotText) ++ " -> " ++ slotText out := by
  have hinputs : (inputs ++ [out]).take count.toNat = inputs := by rw [← hlength, List.take_left]
  have hout : (inputs ++ [out])[count.toNat]?.getD 0 = out := by
    rw [← hlength, List.getElem?_concat_length]
    rfl
  cases op
  case and | or | nand | nor | xor => simp only [Instruction.operandText, hinputs, hout]
  all_goals cases hop

/-- No operand that the text shows is missing. -/
theorem Instruction.indexedText?_eq {i : Instruction} (h : i.Fits) :
    i.indexedText? = some i.operandText := by
  obtain ⟨op, operands⟩ := i
  cases op
  case setPinModeInput | setPinModeOutput =>
    match operands, h.length_eq rfl with
    | [_], _ => rfl
  case readPin | writePin | readAnalogPin | writeAnalogPin | not =>
    match operands, h.length_eq rfl with
    | [_, _], _ => rfl
  case toggle | compareGt | compareGe | compareLt | compareLe | compareEq | compareNe =>
    match operands, h.length_eq rfl with
    | [_, _, _], _ => rfl
  case latch | delay =>
    match operands, h.length_eq rfl with
    | [_, _, _, _], _ => rfl
  case pulse =>
    match operands, h.length_eq rfl with
    | [_, _, _, _, _], _ => rfl
  case analogRange | shiftRegister =>
    match operands, h.length_eq rfl with
    | [_, _, _, _, _, _], _ => rfl
  case and | or | nand | nor | xor =>
    obtain ⟨count, inputs, out, rfl, hlength⟩ := h.exists_inputs rfl
    have hinputs : (List.range' 1 count.toNat).mapM (fun k => (count :: (inputs ++ [out]))[k]?) =
        some inputs := by
      rw [← hlength]
      apply mapM_lookup
      intro k hk
      rw [Nat.add_comm, List.getElem?_cons_succ, List.getElem?_append_left hk]
    have hout : (count :: (inputs ++ [out]))[count.toNat + 1]? = some out := by
      rw [List.getElem?_cons_succ, ← hlength, List.getElem?_concat_length]
    rw [operandText_gate rfl out hlength]
    simp only [indexedText?, List.getElem?_cons_zero, Option.bind_eq_bind, Option.bind_some,
      hinputs, hout]
    rfl

/-! ## One line for each instruction -/

theorem newline_not_mem_slotText (b : UInt8) : '\n' ∉ (slotText b).toList := by
  simp [slotText, not_mem_toDigits]

theorem newline_not_mem_resetText (b : UInt8) : '\n' ∉ (resetText b).toList := by
  unfold resetText
  split
  · decide
  · exact newline_not_mem_slotText b

theorem newline_not_mem_slotTexts (slots : List UInt8) :
    '\n' ∉ [' '].intercalate (slots.map (String.toList ∘ slotText)) := by
  induction slots with
  | nil => simp
  | cons slot slots ih =>
    cases slots with
    | nil => simpa using newline_not_mem_slotText slot
    | cons next slots =>
      rw [List.map_cons, List.intercalate_cons_of_ne_nil (by simp)]
      simpa [newline_not_mem_slotText] using ih

theorem Instruction.newline_not_mem_operandText (i : Instruction) :
    '\n' ∉ i.operandText.toList := by
  unfold operandText
  split <;> simp [pinText, not_mem_toDigits, newline_not_mem_slotText, newline_not_mem_resetText,
    newline_not_mem_slotTexts, -List.map_take]

/-- A mnemonic is one word without digits. -/
theorem Opcode.mnemonic_word (op : Opcode) :
    op.mnemonic.toList.all (fun c => !c.isDigit && c != ' ' && c != '\n') = true := by
  cases op <;> rfl

/-- A line starts with the digits of the offset and two blanks. Behind the mnemonic come a blank and
more, and then the text of the operands. -/
theorem PlacedInstruction.exists_line (x : PlacedInstruction) :
    ∃ digits blanks, (∀ c ∈ digits, c.isDigit = true) ∧ x.line.toList = digits ++
      ' ' :: ' ' :: (x.opcode.mnemonic.toList ++
        ' ' :: (List.replicate blanks ' ' ++ x.operandText.toList)) := by
  refine ⟨(Nat.toDigits 10 x.offset).leftpad 4 '0', 19 - x.opcode.mnemonic.toList.length, ?_, ?_⟩
  · intro c hc
    rcases List.mem_append.1 hc with hc | hc
    · rw [List.eq_of_mem_replicate hc]
      rfl
    · exact isDigit_of_mem_toDigits hc
  · have hblanks : ∀ (k : Nat) (rest : List Char),
        List.replicate k ' ' ++ ' ' :: rest = ' ' :: (List.replicate k ' ' ++ rest) := by
      intro k rest
      rw [← List.cons_append, ← List.replicate_succ, List.replicate_succ', List.append_assoc]
      rfl
    simp [line, Decimal.padded, List.rightpad, hblanks]

theorem PlacedInstruction.newline_not_mem_line (x : PlacedInstruction) :
    '\n' ∉ x.line.toList := by
  have hword := x.opcode.mnemonic_word
  rw [List.all_eq_true] at hword
  have hmnemonic : '\n' ∉ x.opcode.mnemonic.toList := by
    intro hmem
    simpa using hword _ hmem
  obtain ⟨digits, blanks, hdigits, hline⟩ := x.exists_line
  have hoffset : '\n' ∉ digits := by
    intro hmem
    simpa using hdigits _ hmem
  rw [hline]
  simp [hoffset, hmnemonic, x.newline_not_mem_operandText]

theorem toList_listing (placed : List PlacedInstruction) :
    (listing placed).toList = (placed.map fun x => x.line.toList).flatMap (· ++ ['\n']) := by
  simp [listing, List.flatMap_map]

/-- The pieces between the ends of lines are the lines, and nothing is left behind the last one. -/
theorem splitOn_listing (placed : List PlacedInstruction) :
    (listing placed).toList.splitOn '\n' = placed.map (fun x => x.line.toList) ++ [[]] := by
  have hlines : ∀ line ∈ placed.map (fun x => x.line.toList), '\n' ∉ line := by
    intro line hline
    obtain ⟨x, -, rfl⟩ := List.mem_map.1 hline
    exact x.newline_not_mem_line
  rw [toList_listing, ← splitOn_ended hlines List.not_mem_nil, List.append_nil]

/-! ## The operands of a text -/

/-- A number of two bytes, the low byte first. -/
def writtenWord (n : Nat) : List UInt8 := [UInt8.ofNat n, UInt8.ofNat (n / 256)]

/-- The operands of an opcode, from the numbers that its text shows. The inputs of a gate are
counted, and a shift register that shows no reset has none wired. -/
def Opcode.readOperands (op : Opcode) (numbers : List Nat) : List UInt8 :=
  match op, numbers with
  | .writePin, [source, pin] | .writeAnalogPin, [source, pin] =>
    [UInt8.ofNat pin, UInt8.ofNat source]
  | .and, _ | .or, _ | .nand, _ | .nor, _ | .xor, _ =>
    UInt8.ofNat (numbers.length - 1) :: numbers.map UInt8.ofNat
  | .pulse, [out, length, interval] => UInt8.ofNat out :: writtenWord length ++ writtenWord interval
  | .analogRange, [input, min, max, out] =>
    UInt8.ofNat input :: writtenWord min ++ writtenWord max ++ [UInt8.ofNat out]
  | .shiftRegister, [data, clock, width, initial, out] =>
    [UInt8.ofNat data, UInt8.ofNat clock, 255, UInt8.ofNat width, UInt8.ofNat initial,
      UInt8.ofNat out]
  | .delay, [input, out, time] => [UInt8.ofNat input, UInt8.ofNat out] ++ writtenWord time
  | _, _ => numbers.map UInt8.ofNat

theorem writtenWord_wordOf (lo hi : UInt8) : writtenWord (wordOf lo hi) = [lo, hi] := by
  have hlo : UInt8.ofNat (wordOf lo hi) = lo := by
    apply UInt8.toNat_inj.1
    rw [UInt8.toNat_ofNat', wordOf]
    have := lo.toNat_lt
    omega
  have hhi : wordOf lo hi / 256 = hi.toNat := by
    unfold wordOf
    have := lo.toNat_lt
    omega
  rw [writtenWord, hlo, hhi, UInt8.ofNat_toNat]

theorem numbersIn_slotTexts (slots : List UInt8) {rest : List Char}
    (h : endsNumber rest = true) :
    numbersIn ([' '].intercalate (slots.map (String.toList ∘ slotText)) ++ rest) =
      slots.map UInt8.toNat ++ numbersIn rest := by
  induction slots with
  | nil => simp
  | cons slot slots ih =>
    cases slots with
    | nil => simp [slotText, h]
    | cons next slots =>
      rw [List.map_cons, List.intercalate_cons_of_ne_nil (by simp)]
      simpa [slotText] using ih

/-- The numbers in the text of an instruction are enough to tell its operands. -/
theorem Instruction.readOperands_numbersIn {i : Instruction} (h : i.Fits) :
    i.opcode.readOperands (numbersIn i.operandText.toList) = i.operands := by
  obtain ⟨op, operands⟩ := i
  cases op
  case setPinModeInput | setPinModeOutput =>
    match operands, h.length_eq rfl with
    | [pin], _ => simp [operandText, pinText, Opcode.readOperands]
  case readPin | readAnalogPin | writePin | writeAnalogPin | not =>
    match operands, h.length_eq rfl with
    | [_, _], _ => simp [operandText, pinText, slotText, Opcode.readOperands]
  case toggle | compareGt | compareGe | compareLt | compareLe | compareEq | compareNe =>
    match operands, h.length_eq rfl with
    | [_, _, _], _ => simp [operandText, slotText, Opcode.readOperands]
  case latch =>
    match operands, h.length_eq rfl with
    | [_, _, _, _], _ => simp [operandText, slotText, Opcode.readOperands]
  case delay =>
    match operands, h.length_eq rfl with
    | [_, _, _, _], _ => simp [operandText, slotText, Opcode.readOperands, writtenWord_wordOf]
  case pulse =>
    match operands, h.length_eq rfl with
    | [_, _, _, _, _], _ => simp [operandText, slotText, Opcode.readOperands, writtenWord_wordOf]
  case analogRange =>
    match operands, h.length_eq rfl with
    | [_, _, _, _, _, _], _ => simp [operandText, slotText, Opcode.readOperands, writtenWord_wordOf]
  case shiftRegister =>
    match operands, h.length_eq rfl with
    | [_, _, reset, _, _, _], _ =>
      by_cases hreset : reset = 255
      · simp [operandText, slotText, resetText, Opcode.readOperands, hreset]
      · simp [operandText, slotText, resetText, Opcode.readOperands, hreset]
  case and | or | nand | nor | xor =>
    obtain ⟨count, inputs, out, rfl, hlength⟩ := h.exists_inputs rfl
    rw [operandText_gate rfl out hlength]
    have hinputs : inputs.map (UInt8.ofNat ∘ UInt8.toNat) = inputs := by
      simp [Function.comp_def]
    simp [slotText, Opcode.readOperands, numbersIn_slotTexts, hlength, hinputs]

/-! ## Reading a listing -/

/-- The instruction of a line: the word two blanks behind the offset is the mnemonic, and the
numbers from there on are those of the operands. -/
def readLine? (line : List Char) : Option Instruction :=
  let rest := line.dropWhile Char.isDigit
  let word := (rest.drop 2).takeWhile (· ≠ ' ')
  (Opcode.all.find? fun op => op.mnemonic.toList = word).map fun op =>
    ⟨op, op.readOperands (numbersIn rest)⟩

/-- The instructions of a text with one line for each. -/
def readListing? (text : String) : Option (List Instruction) :=
  (text.toList.splitOn '\n').dropLast.mapM readLine?

theorem Opcode.find?_mnemonic (op : Opcode) :
    Opcode.all.find? (fun op' => op'.mnemonic.toList = op.mnemonic.toList) = some op := by
  cases op <;> decide

theorem readLine?_line {x : PlacedInstruction} (h : x.Fits) :
    readLine? x.line.toList = some x.toInstruction := by
  obtain ⟨digits, blanks, hdigits, hline⟩ := x.exists_line
  have hword := x.opcode.mnemonic_word
  rw [List.all_eq_true] at hword
  have hplain : ∀ c ∈ x.opcode.mnemonic.toList, c.isDigit = false ∧ c ≠ ' ' := by
    intro c hc
    have := hword c hc
    simp_all
  have hrest : x.line.toList.dropWhile Char.isDigit = ' ' :: ' ' :: (x.opcode.mnemonic.toList ++
      ' ' :: (List.replicate blanks ' ' ++ x.operandText.toList)) := by
    rw [hline, List.dropWhile_append_of_pos hdigits]
    rfl
  have hmnemonic : (x.opcode.mnemonic.toList ++
      ' ' :: (List.replicate blanks ' ' ++ x.operandText.toList)).takeWhile (· ≠ ' ') =
        x.opcode.mnemonic.toList := by
    rw [List.takeWhile_append_of_pos fun c hc => by simp [(hplain c hc).2]]
    simp
  have hnumbers : numbersIn (x.line.toList.dropWhile Char.isDigit) =
      numbersIn x.operandText.toList := by
    rw [hrest, numbersIn_cons rfl, numbersIn_cons rfl, numbersIn_word fun c hc => (hplain c hc).1,
      numbersIn_cons rfl, numbersIn_word fun c hc => by rw [List.eq_of_mem_replicate hc]; rfl]
  simp only [readLine?, hnumbers]
  rw [hrest, List.drop_succ_cons, List.drop_succ_cons, List.drop_zero, hmnemonic,
    Opcode.find?_mnemonic, Option.map_some, x.readOperands_numbersIn h]

theorem readListing?_listing {placed : List PlacedInstruction} (h : ∀ x ∈ placed, x.Fits) :
    readListing? (listing placed) = some (placed.map PlacedInstruction.toInstruction) := by
  unfold readListing?
  rw [splitOn_listing, List.dropLast_concat]
  exact mapM_map_eq_some fun x hx => readLine?_line (h x hx)

/-! ## Nothing is lost -/

/-- The listing of bytes that can be read shows operands that are there, in lines that each end, one
for each instruction. The bytes can be told from it, so no two programs have the same listing. -/
theorem listing_lossless :
    (∀ bytes placed, decode bytes = .ok placed →
      (∀ x ∈ placed, x.indexedText? = some x.operandText) ∧
      (listing placed).toList.splitOn '\n' = placed.map (fun x => x.line.toList) ++ [[]] ∧
      (readListing? (listing placed)).map encode = some bytes) ∧
    ∀ bytes bytes' placed placed', decode bytes = .ok placed → decode bytes' = .ok placed' →
      listing placed = listing placed' → bytes = bytes' := by
  have hread : ∀ bytes placed, decode bytes = .ok placed → (∀ x ∈ placed, x.Fits) ∧
      (readListing? (listing placed)).map encode = some bytes := by
    intro bytes placed h
    obtain ⟨is, hfits, rfl, rfl⟩ := decode_eq_ok h
    have hplaced : ∀ x ∈ placeFrom 0 is, x.Fits := by
      intro x hx
      have hmem := List.mem_map_of_mem (f := PlacedInstruction.toInstruction) hx
      rw [map_toInstruction_placeFrom] at hmem
      exact hfits _ hmem
    refine ⟨hplaced, ?_⟩
    rw [readListing?_listing hplaced, map_toInstruction_placeFrom]
    rfl
  refine ⟨?_, ?_⟩
  · intro bytes placed h
    obtain ⟨hfits, hbytes⟩ := hread bytes placed h
    exact ⟨fun x hx => x.indexedText?_eq (hfits x hx), splitOn_listing placed, hbytes⟩
  · intro bytes bytes' placed placed' h h' heq
    have hbytes := (hread bytes placed h).2
    rw [heq, (hread bytes' placed' h').2] at hbytes
    exact (Option.some.inj hbytes).symm

/-- An OR of nothing, a pulse, and a shift register without a reset. -/
theorem sparse_lossless :
    decode [12, 0, 7, 17, 1, 232, 3, 0, 1, 26, 0, 1, 255, 8, 0, 2] = .ok [
      { opcode := .or, operands := [0, 7], offset := 0 },
      { opcode := .pulse, operands := [1, 232, 3, 0, 1], offset := 3 },
      { opcode := .shiftRegister, operands := [0, 1, 255, 8, 0, 2], offset := 9 }] ∧
    (readListing? ("0000  OR                   -> v7\n" ++
      "0003  PULSE               -> v1 pulse 1000ms every 256ms\n" ++
      "0009  SHIFT_REGISTER      data v0 clock v1 reset - width 8 init 0 -> v2\n")).map encode =
        some [12, 0, 7, 17, 1, 232, 3, 0, 1, 26, 0, 1, 255, 8, 0, 2] := by
  have hdecode : decode [12, 0, 7, 17, 1, 232, 3, 0, 1, 26, 0, 1, 255, 8, 0, 2] = .ok [
      { opcode := .or, operands := [0, 7], offset := 0 },
      { opcode := .pulse, operands := [1, 232, 3, 0, 1], offset := 3 },
      { opcode := .shiftRegister, operands := [0, 1, 255, 8, 0, 2], offset := 9 }] := by cbv
  have hlisting : listing [
      { opcode := .or, operands := [0, 7], offset := 0 },
      { opcode := .pulse, operands := [1, 232, 3, 0, 1], offset := 3 },
      { opcode := .shiftRegister, operands := [0, 1, 255, 8, 0, 2], offset := 9 }] =
    "0000  OR                   -> v7\n" ++
      "0003  PULSE               -> v1 pulse 1000ms every 256ms\n" ++
      "0009  SHIFT_REGISTER      data v0 clock v1 reset - width 8 init 0 -> v2\n" := by decide +kernel
  refine ⟨hdecode, ?_⟩
  rw [← hlisting]
  exact (listing_lossless.1 _ _ hdecode).2.2

end LogicWiring
