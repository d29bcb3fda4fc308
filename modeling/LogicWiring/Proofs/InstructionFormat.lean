-- The format of instruction bytes. Bytes are read exactly if they are
-- well-formed instructions in a row. All other bytes get stuck behind the
-- instructions they start with, for want of bytes or at a byte that is no
-- opcode. Main statement: `decode_exact`.
import LogicWiring.Proofs.Decoding

namespace LogicWiring

/-- The instruction has the operands that its opcode lays out: so many of them, or a count in
front and two more than it says. -/
def Instruction.WellFormed (i : Instruction) : Prop :=
  match i.opcode.layout with
  | .fixed size => i.operands.length = size
  | .counted => ∃ count, i.operands.head? = some count ∧ i.operands.length = count.toNat + 2

theorem Instruction.fits_iff (i : Instruction) : i.Fits ↔ i.WellFormed := by
  unfold Fits WellFormed Opcode.operandSize
  cases i.opcode.layout with
  | fixed size => exact eq_comm
  | counted => cases i.operands <;> simp [eq_comm]

/-! ## Bytes that get stuck -/

/-- No instruction stands in front of bytes at `offset`: the first one is no opcode, or asks for
more operands than there are. -/
inductive Stuck (offset : Nat) : List UInt8 → DecodeError → Prop
  | unknown {b : UInt8} {rest : List UInt8} (h : Opcode.ofByte? b = none) :
    Stuck offset (b :: rest) (.unknownOpcode offset b)
  | short {op : Opcode} {rest : List UInt8} (h : rest.length < op.operandSize rest) :
    Stuck offset (op.byte :: rest) (.truncated offset op (op.operandSize rest) rest.length)

def DecodeError.offset : DecodeError → Nat
  | unknownOpcode offset _ => offset
  | truncated offset _ _ _ => offset

theorem Stuck.offset_eq {offset : Nat} {bytes : List UInt8} {e : DecodeError}
    (h : Stuck offset bytes e) : e.offset = offset := by
  cases h <;> rfl

theorem Stuck.decodeFrom_eq {offset : Nat} {bytes : List UInt8} {e : DecodeError}
    (h : Stuck offset bytes e) : decodeFrom offset bytes = .error e := by
  cases h with
  | unknown h => rw [decodeFrom, h]
  | short h =>
    rw [decodeFrom, Opcode.ofByte?_byte]
    exact if_pos h

/-- An opcode and the operands that it asks for are an instruction. -/
theorem fits_take {op : Opcode} {rest : List UInt8} (h : op.operandSize rest ≤ rest.length) :
    Instruction.Fits ⟨op, rest.take (op.operandSize rest)⟩ := by
  unfold Instruction.Fits
  simp only [List.length_take, Nat.min_eq_left h]
  unfold Opcode.operandSize at h ⊢
  cases hl : op.layout with
  | fixed size => rfl
  | counted =>
    cases rest with
    | nil => simp [hl] at h
    | cons count rest => rfl

/-- Bytes that start with instructions, where what follows them is empty or stuck. -/
def Splits (offset : Nat) (bytes : List UInt8) : Prop :=
  ∃ is rest, (∀ i ∈ is, i.Fits) ∧ bytes = encode is ++ rest ∧
    (rest = [] ∨ ∃ e, Stuck (offset + (encode is).length) rest e)

theorem Splits.of_stuck {offset : Nat} {bytes : List UInt8} {e : DecodeError}
    (h : Stuck offset bytes e) : Splits offset bytes :=
  ⟨[], bytes, by simp, rfl, .inr ⟨e, h⟩⟩

/-- An instruction goes before the others. -/
theorem Splits.cons {op : Opcode} {offset : Nat} {rest : List UInt8}
    (hsize : op.operandSize rest ≤ rest.length)
    (h : Splits (offset + 1 + op.operandSize rest) (rest.drop (op.operandSize rest))) :
    Splits offset (op.byte :: rest) := by
  obtain ⟨is, later, hfits, hbytes, hlater⟩ := h
  have hlen : (⟨op, rest.take (op.operandSize rest)⟩ : Instruction).size =
      1 + op.operandSize rest := by
    simp [Instruction.size, Nat.min_eq_left hsize]
  refine ⟨⟨op, rest.take (op.operandSize rest)⟩ :: is, later, ?_, ?_, ?_⟩
  · intro i hi
    rcases List.mem_cons.1 hi with rfl | hi
    · exact fits_take hsize
    · exact hfits i hi
  · rw [encode, List.flatMap_cons, ← encode, List.append_assoc, ← hbytes]
    simp [Instruction.bytes]
  · rw [length_encode_cons, hlen, ← Nat.add_assoc, ← Nat.add_assoc]
    exact hlater

theorem splits (offset : Nat) (bytes : List UInt8) : Splits offset bytes := by
  fun_induction decodeFrom offset bytes with
  | case1 => exact ⟨[], [], by simp, rfl, .inl rfl⟩
  | case2 offset b rest hop => exact .of_stuck (.unknown hop)
  | case3 offset b rest op hop needed hshort =>
    rw [← Opcode.byte_of_ofByte? hop]
    exact .of_stuck (.short hshort)
  | case4 offset b rest op hop needed hsize e _ ih =>
    rw [← Opcode.byte_of_ofByte? hop]
    exact .cons (Nat.not_lt.1 hsize) ih
  | case5 offset b rest op hop needed hsize later _ ih =>
    rw [← Opcode.byte_of_ofByte? hop]
    exact .cons (Nat.not_lt.1 hsize) ih

/-! ## What decoding finds -/

/-- The bytes can be read to their end. -/
def Decodable (bytes : List UInt8) : Prop := ∃ placed, decode bytes = .ok placed

theorem decode_encode {is : List Instruction} (h : ∀ i ∈ is, i.Fits) :
    decode (encode is) = .ok (placeFrom 0 is) :=
  decodeFrom_encode h 0

theorem decodable_encode {is : List Instruction} (h : ∀ i ∈ is, i.Fits) : Decodable (encode is) :=
  ⟨_, decode_encode h⟩

/-- What gets stuck behind instructions ends the reading with its error. -/
theorem decode_stuck {is : List Instruction} {rest : List UInt8} {e : DecodeError}
    (h : ∀ i ∈ is, i.Fits) (hstuck : Stuck (encode is).length rest e) :
    decode (encode is ++ rest) = .error e := by
  rw [decode, decodeFrom_encode_append h, Nat.zero_add, hstuck.decodeFrom_eq]
  rfl

theorem decode_eq_ok {bytes : List UInt8} {placed : List PlacedInstruction}
    (h : decode bytes = .ok placed) :
    ∃ is, (∀ i ∈ is, i.Fits) ∧ bytes = encode is ∧ placed = placeFrom 0 is := by
  obtain ⟨is, rest, hfits, rfl, rfl | ⟨e, hstuck⟩⟩ := splits 0 bytes
  · rw [List.append_nil] at h ⊢
    rw [decode_encode hfits] at h
    exact ⟨is, hfits, rfl, (Except.ok.inj h).symm⟩
  · rw [Nat.zero_add] at hstuck
    rw [decode_stuck hfits hstuck] at h
    cases h

theorem decode_eq_error {bytes : List UInt8} {e : DecodeError} (h : decode bytes = .error e) :
    ∃ is rest, (∀ i ∈ is, i.Fits) ∧ bytes = encode is ++ rest ∧
      Stuck (encode is).length rest e := by
  obtain ⟨is, rest, hfits, rfl, rfl | ⟨e', hstuck⟩⟩ := splits 0 bytes
  · rw [List.append_nil, decode_encode hfits] at h
    cases h
  · rw [Nat.zero_add] at hstuck
    rw [decode_stuck hfits hstuck] at h
    cases h
    exact ⟨is, rest, hfits, rfl, hstuck⟩

theorem offset_placeFrom {offset k : Nat} {is : List Instruction} {x : PlacedInstruction}
    (h : (placeFrom offset is)[k]? = some x) :
    x.offset = offset + (encode (is.take k)).length := by
  induction is generalizing offset k with
  | nil => simp [placeFrom] at h
  | cons i rest ih =>
    cases k with
    | zero =>
      simp only [placeFrom, List.getElem?_cons_zero, Option.some.injEq] at h
      simp [← h, encode]
    | succ k =>
      rw [List.take_succ_cons, length_encode_cons, ← Nat.add_assoc]
      exact ih h

/-! ## More bytes -/

/-- An opcode that lacks operands can get them. -/
theorem exists_operands {op : Opcode} {rest : List UInt8} (h : rest.length < op.operandSize rest) :
    ∃ more, Instruction.Fits ⟨op, rest ++ more⟩ := by
  simp only [Instruction.fits_iff, Instruction.WellFormed]
  unfold Opcode.operandSize at h
  cases hl : op.layout with
  | fixed size =>
    simp only [hl] at h ⊢
    refine ⟨List.replicate (size - rest.length) 0, ?_⟩
    simp only [List.length_append, List.length_replicate]
    omega
  | counted =>
    cases rest with
    | nil => exact ⟨[0, 0], 0, rfl, rfl⟩
    | cons count rest =>
      simp only [hl, List.length_cons] at h
      refine ⟨List.replicate (count.toNat + 1 - rest.length) 0, count, rfl, ?_⟩
      simp only [List.cons_append, List.length_cons, List.length_append, List.length_replicate]
      omega

/-- Whatever follows a byte that is no opcode, it stays one. -/
theorem not_decodable_of_unknown {bytes more : List UInt8} {offset : Nat} {b : UInt8}
    (h : decode bytes = .error (.unknownOpcode offset b)) : ¬ Decodable (bytes ++ more) := by
  obtain ⟨is, rest, hfits, rfl, hstuck⟩ := decode_eq_error h
  cases hstuck with
  | unknown hop =>
    rintro ⟨placed, hp⟩
    rw [List.append_assoc, List.cons_append, decode_stuck hfits (.unknown hop)] at hp
    cases hp

theorem exists_more_of_truncated {bytes : List UInt8} {offset needed available : Nat} {op : Opcode}
    (h : decode bytes = .error (.truncated offset op needed available)) :
    ∃ more, Decodable (bytes ++ more) := by
  obtain ⟨is, rest, hfits, rfl, hstuck⟩ := decode_eq_error h
  cases hstuck with
  | @short _ rest hshort =>
    obtain ⟨more, hmore⟩ := exists_operands hshort
    have hlast : encode is ++ op.byte :: rest ++ more = encode (is ++ [⟨op, rest ++ more⟩]) := by
      simp [encode, Instruction.bytes]
    refine ⟨more, hlast ▸ decodable_encode fun i hi => ?_⟩
    rcases List.mem_append.1 hi with hi | hi
    · exact hfits i hi
    · rw [List.mem_singleton.1 hi]
      exact hmore

/-- An error lies behind all that can be read. -/
theorem length_le_offset {first rest : List UInt8} {e : DecodeError} (hfirst : Decodable first)
    (h : decode (first ++ rest) = .error e) : first.length ≤ e.offset := by
  obtain ⟨placed, hplaced⟩ := hfirst
  obtain ⟨is, hfits, rfl, -⟩ := decode_eq_ok hplaced
  obtain ⟨js, later, hjs, rfl, rfl | ⟨e', hstuck⟩⟩ := splits (encode is).length rest
  · rw [decode, decodeFrom_encode_append hfits, List.append_nil, decodeFrom_encode hjs] at h
    cases h
  · rw [decode, decodeFrom_encode_append hfits, decodeFrom_encode_append hjs, Nat.zero_add,
      hstuck.decodeFrom_eq] at h
    cases h
    rw [hstuck.offset_eq]
    exact Nat.le_add_right _ _

theorem exists_readable {bytes : List UInt8} {e : DecodeError} (h : decode bytes = .error e) :
    ∃ first, first <+: bytes ∧ Decodable first ∧ first.length = e.offset := by
  obtain ⟨is, rest, hfits, rfl, hstuck⟩ := decode_eq_error h
  exact ⟨encode is, List.prefix_append _ _, decodable_encode hfits, hstuck.offset_eq.symm⟩

/-! ## The format is exact -/

/-- Well-formed instructions in a row read back, each at the place of its first byte, and nothing
else can be read. Of all other bytes, those are reported as cut short that more bytes can mend,
and those as holding no opcode that none can. Both errors lie where the longest readable part
ends. -/
theorem decode_exact :
    (∀ is : List Instruction, (∀ i ∈ is, i.WellFormed) →
      ∃ placed, decode (encode is) = .ok placed ∧
        placed.map PlacedInstruction.toInstruction = is ∧
        ∀ k x, placed[k]? = some x → x.offset = (encode (is.take k)).length) ∧
    (∀ bytes placed, decode bytes = .ok placed →
      encode (placed.map PlacedInstruction.toInstruction) = bytes ∧
        ∀ x ∈ placed, x.WellFormed) ∧
    (∀ bytes, (∃ offset op needed available,
        decode bytes = .error (.truncated offset op needed available)) ↔
      ¬ Decodable bytes ∧ ∃ more, Decodable (bytes ++ more)) ∧
    (∀ bytes, (∃ offset b, decode bytes = .error (.unknownOpcode offset b)) ↔
      ¬ ∃ more, Decodable (bytes ++ more)) ∧
    ∀ bytes e, decode bytes = .error e →
      (∃ first, first <+: bytes ∧ Decodable first ∧ first.length = e.offset) ∧
        ∀ first, first <+: bytes → Decodable first → first.length ≤ e.offset := by
  refine ⟨?_, ?_, ?_, ?_, ?_⟩
  · intro is h
    have hfits : ∀ i ∈ is, i.Fits := fun i hi => i.fits_iff.2 (h i hi)
    refine ⟨_, decode_encode hfits, map_toInstruction_placeFrom 0 is, fun k x hx => ?_⟩
    rw [offset_placeFrom hx, Nat.zero_add]
  · intro bytes placed h
    obtain ⟨is, hfits, rfl, rfl⟩ := decode_eq_ok h
    rw [map_toInstruction_placeFrom]
    refine ⟨rfl, fun x hx => ?_⟩
    have hmem := List.mem_map_of_mem (f := PlacedInstruction.toInstruction) hx
    rw [map_toInstruction_placeFrom] at hmem
    exact x.fits_iff.1 (hfits _ hmem)
  · intro bytes
    constructor
    · rintro ⟨offset, op, needed, available, h⟩
      refine ⟨?_, exists_more_of_truncated h⟩
      rintro ⟨placed, hp⟩
      rw [h] at hp
      cases hp
    · rintro ⟨hnot, more, hmore⟩
      match h : decode bytes with
      | .ok placed => exact absurd ⟨placed, h⟩ hnot
      | .error (.truncated offset op needed available) =>
        exact ⟨offset, op, needed, available, rfl⟩
      | .error (.unknownOpcode offset b) => exact absurd hmore (not_decodable_of_unknown h)
  · intro bytes
    constructor
    · rintro ⟨offset, b, h⟩ ⟨more, hmore⟩
      exact not_decodable_of_unknown h hmore
    · intro hnone
      match h : decode bytes with
      | .ok placed => exact absurd ⟨[], by rw [List.append_nil]; exact ⟨placed, h⟩⟩ hnone
      | .error (.truncated offset op needed available) =>
        exact absurd (exists_more_of_truncated h) hnone
      | .error (.unknownOpcode offset b) => exact ⟨offset, b, rfl⟩
  · intro bytes e h
    refine ⟨exists_readable h, ?_⟩
    rintro first ⟨rest, rfl⟩ hfirst
    exact length_le_offset hfirst h

/-- An OR of two and a toggle; then without the end of the toggle, and with a byte in its place
that is no opcode. -/
theorem orToggle_exact :
    (∃ placed, decode [12, 2, 0, 1, 2, 18, 2, 3, 0] = .ok placed ∧
      placed.map PlacedInstruction.toInstruction = [⟨.or, [2, 0, 1, 2]⟩, ⟨.toggle, [2, 3, 0]⟩]) ∧
    (∃ more, Decodable ([12, 2, 0, 1, 2, 18, 2] ++ more)) ∧
    ¬ ∃ more, Decodable ([12, 2, 0, 1, 2, 9, 2] ++ more) := by
  obtain ⟨hread, -, hshort, hunknown, -⟩ := decode_exact
  refine ⟨?_, ?_, ?_⟩
  · obtain ⟨placed, hp, his, -⟩ := hread [⟨.or, [2, 0, 1, 2]⟩, ⟨.toggle, [2, 3, 0]⟩] (by
      intro i hi
      simp only [List.mem_cons, List.not_mem_nil, or_false] at hi
      rcases hi with rfl | rfl
      · exact ⟨2, rfl, rfl⟩
      · rfl)
    exact ⟨placed, hp, his⟩
  · exact ((hshort _).1 ⟨5, .toggle, 3, 1, by cbv⟩).2
  · exact (hunknown _).1 ⟨5, 9, by cbv⟩

end LogicWiring
