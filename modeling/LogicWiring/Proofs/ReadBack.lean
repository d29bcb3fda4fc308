-- A program reads back as the instructions it was put together from, for any
-- order and any slots: the pin modes of its live inputs and outputs, then the
-- emissions of its live nodes. Main statement: `decode_program`.
import LogicWiring.Proofs.Emission
import Mathlib

namespace LogicWiring

/-! ## Places -/

theorem length_placeFrom (offset : Nat) (is : List Instruction) :
    (placeFrom offset is).length = is.length := by
  rw [← List.length_map PlacedInstruction.toInstruction, map_toInstruction_placeFrom]

/-- What is placed behind other instructions starts where their bytes end. -/
theorem placeFrom_append (offset : Nat) (is js : List Instruction) :
    placeFrom offset (is ++ js) =
      placeFrom offset is ++ placeFrom (offset + (encode is).length) js := by
  induction is generalizing offset with
  | nil => simp [placeFrom, encode]
  | cons i rest ih =>
    rw [List.cons_append, placeFrom, placeFrom, ih, length_encode_cons, Nat.add_assoc,
      List.cons_append]

/-- An instruction is placed within the bytes of the row it stands in. -/
theorem offset_of_mem_placeFrom {offset : Nat} {is : List Instruction} {x : PlacedInstruction}
    (h : x ∈ placeFrom offset is) :
    x.toInstruction ∈ is ∧ offset ≤ x.offset ∧ x.offset < offset + (encode is).length := by
  induction is generalizing offset with
  | nil => simp [placeFrom] at h
  | cons i rest ih =>
    rw [length_encode_cons]
    rcases List.mem_cons.1 h with rfl | h
    · exact ⟨by simp, Nat.le_refl _, by simp only [Instruction.size]; omega⟩
    · obtain ⟨hmem, hle, hlt⟩ := ih h
      exact ⟨List.mem_cons_of_mem _ hmem, by omega, by omega⟩

/-- The bytes of the first of two parts end where the second part starts, which is the end of
all bytes if that is empty. -/
theorem offset_of_second_part (is js : List Instruction) :
    (((placeFrom 0 (is ++ js)).drop is.length).head?.map fun x => x.offset).getD
      (encode (is ++ js)).length = (encode is).length := by
  rw [placeFrom_append, List.drop_left' (length_placeFrom 0 is), Nat.zero_add]
  cases js with
  | nil => simp [placeFrom]
  | cons j js => rfl

/-- An instruction of two parts stands before the second part exactly if it is of the first,
where something tells the two parts apart. -/
theorem offset_lt_iff {is js : List Instruction} (first : Instruction → Bool)
    (his : ∀ i ∈ is, first i = true) (hjs : ∀ j ∈ js, first j = false) {x : PlacedInstruction}
    (hx : x ∈ placeFrom 0 (is ++ js)) :
    x.offset < (encode is).length ↔ first x.toInstruction = true := by
  rw [placeFrom_append, Nat.zero_add] at hx
  rcases List.mem_append.1 hx with hx | hx
  · obtain ⟨hmem, -, hlt⟩ := offset_of_mem_placeFrom hx
    exact iff_of_true (by simpa using hlt) (his _ hmem)
  · obtain ⟨hmem, hle, -⟩ := offset_of_mem_placeFrom hx
    exact iff_of_false (Nat.not_lt.2 hle) (by simp [hjs _ hmem])

/-! ## Pin modes -/

/-- Whether an instruction with this opcode sets the mode of a pin. -/
def Opcode.isPinMode : Opcode → Bool
  | setPinModeInput | setPinModeOutput => true
  | _ => false

/-- The pin mode of a node of this kind. Only inputs and outputs with a pin have one. -/
def NodeKind.pinMode (kind : NodeKind) : Option Instruction :=
  kind.pin.map fun pin =>
    ⟨if kind.isSink then .setPinModeOutput else .setPinModeInput, [pin.toUInt8]⟩

theorem Graph.pinMode_eq_ok {n : Node} {res : Option Instruction} (h : pinMode n = .ok res) :
    res = n.kind.pinMode := by
  unfold Graph.pinMode at h
  cases hk : n.kind with
  | input pin | output pin =>
    simp only [hk] at h
    cases pin with
    | none =>
      cases h
      rfl
    | some pin =>
      obtain ⟨b, hb, hres⟩ := bind_eq_ok.1 h
      obtain ⟨-, rfl⟩ := pinOperand_eq_ok.1 hb
      cases hres
      rw [hk]
      rfl
  | _ =>
    rw [hk] at h
    cases h
    rfl

theorem NodeKind.of_pinMode {kind : NodeKind} {ins : Instruction} (h : kind.pinMode = some ins) :
    ins.Fits ∧ ins.opcode.isPinMode = true := by
  obtain ⟨pin, -, rfl⟩ := Option.map_eq_some_iff.1 h
  cases kind.isSink <;> exact ⟨rfl, rfl⟩

/-- What a checked walk over a list collects, when each step can only give one thing. -/
theorem collect_of_mapM {α ε : Type} {f : α → Except ε (Option Instruction)}
    {emit : α → Option Instruction} {xs : List α} {found : List (Option Instruction)}
    (h : xs.mapM f = .ok found) (hf : ∀ x res, f x = .ok res → res = emit x) :
    found.filterMap id = xs.filterMap emit := by
  induction xs generalizing found with
  | nil =>
    cases h
    rfl
  | cons x xs ih =>
    rw [List.mapM_cons] at h
    obtain ⟨res, hres, h⟩ := bind_eq_ok.1 h
    obtain ⟨later, hlater, h⟩ := bind_eq_ok.1 h
    cases h
    cases hf x res hres
    rw [List.filterMap_cons, List.filterMap_cons, ih hlater]
    rfl

namespace Graph

variable {g : Graph} {m : SlotMap} {order : List Nat} {live : List Bool}

theorem preamble_eq_ok {modes : List Instruction} (h : g.preamble live = .ok modes) :
    modes = (g.nodes.zipIdx.filter fun (n, i) => !n.synthetic && live[i]?.getD false).filterMap
      fun (n, _) => n.kind.pinMode := by
  obtain ⟨found, hfound, h⟩ := bind_eq_ok.1 h
  cases h
  exact collect_of_mapM hfound fun _ _ => pinMode_eq_ok

theorem body_eq_ok {is : List Instruction} (h : g.body order m live = .ok is) :
    is = (order.filter fun i => live[i]?.getD false).filterMap (g.emission m) := by
  obtain ⟨found, hfound, h⟩ := bind_eq_ok.1 h
  cases h
  exact collect_of_mapM hfound fun _ _ hres => (instruction_eq_ok hres).1

/-- No node sets the mode of a pin in the body. -/
theorem isPinMode_opcodeAt (i : Nat) (kind : NodeKind) :
    (g.opcodeAt i kind).isPinMode = false := by
  cases kind with
  | input pin =>
    cases ha : g.feedsAnalog i <;> simp [opcodeAt, ha, Opcode.isPinMode]
  | gate op fanIn => cases op <;> rfl
  | compare comparator => cases comparator <;> rfl
  | _ => rfl

theorem isPinMode_of_emission {i : Nat} {ins : Instruction} (h : g.emission m i = some ins) :
    ins.opcode.isPinMode = false := by
  obtain ⟨kind, out, -, hlaid⟩ := layOut_of_emission h
  obtain ⟨slots, -, rfl⟩ := Option.map_eq_some_iff.1 hlaid
  exact isPinMode_opcodeAt i kind

theorem of_mem_preamble {modes : List Instruction} {ins : Instruction}
    (h : g.preamble live = .ok modes) (hi : ins ∈ modes) :
    ins.Fits ∧ ins.opcode.isPinMode = true := by
  rw [preamble_eq_ok h] at hi
  obtain ⟨⟨n, i⟩, -, hmode⟩ := List.mem_filterMap.1 hi
  exact NodeKind.of_pinMode hmode

theorem of_mem_body {is : List Instruction} {ins : Instruction}
    (h : g.body order m live = .ok is) (hi : ins ∈ is) :
    ins.Fits ∧ ins.opcode.isPinMode = false := by
  obtain ⟨i, -, -, hres⟩ := mem_body h hi
  exact ⟨fits_of_instruction hres, isPinMode_of_emission (instruction_eq_ok hres).1.symm⟩

/-! ## Programs -/

/-- A program reads back as what was put into it. Its pin modes are those of the live nodes that
the author drew, in node order; its other instructions are those of the live nodes of the order,
an output or a node with a slot each, where the wires are complete. The first part ends at the
offset that the program holds, and sets a pin mode with each instruction; the second never
does. -/
theorem decode_program {p : Program} (h : g.program order m = .ok p) :
    let live := g.liveness order
    let modes := (g.nodes.zipIdx.filter fun (n, i) => !n.synthetic && live[i]?.getD false).filterMap
      fun (n, _) => n.kind.pinMode
    let body := (order.filter fun i => live[i]?.getD false).filterMap (g.emission m)
    let placed := placeFrom 0 (modes ++ body)
    g.preamble live = .ok modes ∧ g.body order m live = .ok body ∧
    (∀ i, (g.emission m i).isSome = (g.kindAt i).any fun kind =>
      (kind.isSink || (m.get i).isSome) && g.isComplete m i kind) ∧
    decode p.bytes = .ok placed ∧
    p.bodyOffset = ((placed.drop modes.length).head?.map fun x => x.offset).getD p.bytes.length ∧
    ∀ x ∈ placed, x.offset < p.bodyOffset ↔ x.opcode.isPinMode = true := by
  intro live modes body placed
  obtain ⟨ms, is, hmodes, hbody, rfl⟩ := program_eq_ok h
  obtain rfl : ms = modes := preamble_eq_ok hmodes
  obtain rfl : is = body := body_eq_ok hbody
  have hfirst : ∀ ins ∈ modes, ins.Fits ∧ ins.opcode.isPinMode = true := fun _ hins =>
    of_mem_preamble hmodes hins
  have hsecond : ∀ ins ∈ body, ins.Fits ∧ ins.opcode.isPinMode = false := fun _ hins =>
    of_mem_body hbody hins
  refine ⟨hmodes, hbody, isSome_emission g m, ?_, ?_, ?_⟩
  · rw [← encode_append]
    refine decodeFrom_encode (fun ins hins => ?_) 0
    rcases List.mem_append.1 hins with hins | hins
    · exact (hfirst ins hins).1
    · exact (hsecond ins hins).1
  · rw [← encode_append]
    exact (offset_of_second_part modes body).symm
  · intro x hx
    exact offset_lt_iff (fun ins => ins.opcode.isPinMode) (fun ins hins => (hfirst ins hins).2)
      (fun ins hins => (hsecond ins hins).2) hx

end Graph

/-- An input that an output and an OR read; the OR has no second wire. -/
def halfWired : Graph where
  nodes := [{ id := "a", kind := .input (some 2) }, { id := "o", kind := .output (some 8) },
    { id := "or", kind := .gate .or 2 }]
  edges := [{ source := "a", target := "o" }, { source := "a", target := "or" }]
  ids_nodup := by decide
  ends_known := by decide

/-- An order that visits the output before the input, and again after it. -/
theorem halfWired_reads_back :
    halfWired.program [1, 2, 0, 1] { slots := [some 7, some 9, some 7], count := 5 } =
      .ok { bytes := [1, 2, 2, 8, 4, 8, 7, 3, 2, 7, 4, 8, 7], slotCount := 5, bodyOffset := 4 } ∧
    decode [1, 2, 2, 8, 4, 8, 7, 3, 2, 7, 4, 8, 7] = .ok [
      { opcode := .setPinModeInput, operands := [2], offset := 0 },
      { opcode := .setPinModeOutput, operands := [8], offset := 2 },
      { opcode := .writePin, operands := [8, 7], offset := 4 },
      { opcode := .readPin, operands := [2, 7], offset := 7 },
      { opcode := .writePin, operands := [8, 7], offset := 10 }] := by
  have hlive : halfWired.liveness [1, 2, 0, 1] = List.replicate 3 true := by decide
  have hp : halfWired.program [1, 2, 0, 1] { slots := [some 7, some 9, some 7], count := 5 } =
      .ok { bytes := [1, 2, 2, 8, 4, 8, 7, 3, 2, 7, 4, 8, 7], slotCount := 5, bodyOffset := 4 } := by
    rw [Graph.program, hlive]
    cbv
  refine ⟨hp, ?_⟩
  have hread := (Graph.decode_program hp).2.2.2.1
  rw [hlive] at hread
  rw [hread]
  cbv

end LogicWiring
