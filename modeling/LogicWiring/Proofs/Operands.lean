-- The bytes of an instruction, told apart from the checks on the way to them:
-- what a node reads, and how a kind lays its operands out. Main statement:
-- `instruction_eq_ok`, for any slot map.
import LogicWiring.Proofs.Dataflow
import LogicWiring.Proofs.Decoding
import LogicWiring.Proofs.Failures

namespace LogicWiring

/-! ## Checked operands -/

theorem byteOperand_eq_ok {n : Node} {field : OperandField} {value : Nat} {b : UInt8} :
    byteOperand n field value = .ok b ↔ value ≤ 255 ∧ b = UInt8.ofNat value := by
  unfold byteOperand
  split
  · simp [*, eq_comm]
  · simp [*]

theorem wordOperand_eq_ok {n : Node} {field : OperandField} {value : UInt32} {bs : List UInt8} :
    wordOperand n field value = .ok bs ↔ value.toNat ≤ 65535 ∧ bs = wordBytes value := by
  unfold wordOperand
  split
  · simp only [*, true_and, Except.ok.injEq]
    exact eq_comm
  · simp [*]

theorem pinOperand_eq_ok {n : Node} {b : UInt8} :
    pinOperand n = .ok b ↔ (n.kind.pin.getD 0).toNat ≤ 255 ∧ b = (n.kind.pin.getD 0).toUInt8 := by
  unfold pinOperand
  rw [byteOperand_eq_ok]
  simp

/-! ## Layouts -/

/-- The operands of a node of this kind that reads `slots` and gives its value to `out`. -/
def NodeKind.operandBytes (slots : List UInt8) (out : UInt8) : NodeKind → List UInt8
  | .input pin => [(pin.getD 0).toUInt8, out]
  | .output pin => (pin.getD 0).toUInt8 :: slots
  | .gate _ _ => UInt8.ofNat slots.length :: slots ++ [out]
  | .not | .compare _ => slots ++ [out]
  | .latch initial | .toggle initial => slots ++ [out, flagByte initial]
  | .pulse length interval => out :: wordBytes length ++ wordBytes interval
  | .range min max => slots ++ wordBytes min ++ wordBytes max ++ [out]
  | .shift width initial => slots ++ [width.toUInt8, initial.toUInt8, out]

namespace Graph

/-- The slots behind the first wires of two handles, if both have one. -/
def handleSlots (g : Graph) (m : SlotMap) (i : Nat) (first second : String) :
    Option (List UInt8) :=
  match g.handleSlot m i first, g.handleSlot m i second with
  | some a, some b => some [a, b]
  | _, _ => none

theorem handleSlots_eq_some {g : Graph} {m : SlotMap} {i : Nat} {first second : String}
    {slots : List UInt8} (h : g.handleSlots m i first second = some slots) :
    ∃ a b, slots = [a, b] := by
  unfold handleSlots at h
  split at h
  · cases h
    exact ⟨_, _, rfl⟩
  · simp at h

/-- The slots that a node of this kind reads. Nothing if its wires are not complete. An output
without a driver reads slot 0. -/
def readSlots (g : Graph) (m : SlotMap) (i : Nat) : NodeKind → Option (List UInt8)
  | .input _ | .pulse _ _ => some []
  | .output _ => some [(g.driverSlots m i).headD 0]
  | .gate _ _ => if (g.driverSlots m i).length < 2 then none else some (g.driverSlots m i)
  | .not | .toggle _ | .range _ _ => (g.driverSlots m i).head?.map fun s => [s]
  | .latch _ => g.handleSlots m i "set" "reset"
  | .compare _ => g.handleSlots m i "a" "b"
  | .shift _ _ => (g.handleSlots m i "data" "clock").map fun slots =>
      slots ++ [(g.handleSlot m i "reset").getD unconnected]

/-- The instruction of a node of this kind with complete wires. -/
def layOut (g : Graph) (m : SlotMap) (i : Nat) (out : UInt8) (kind : NodeKind) :
    Option Instruction :=
  (g.readSlots m i kind).map fun slots => ⟨g.opcodeAt i kind, kind.operandBytes slots out⟩

/-- The instruction that a node stands for: none if its wires are not complete, or if it has no
slot for its value and is no output, which needs none. -/
def emission (g : Graph) (m : SlotMap) (i : Nat) : Option Instruction :=
  (g.kindAt i).bind fun kind =>
    if kind.isSink then g.layOut m i 0 kind
    else (m.get i).bind fun out => g.layOut m i out kind

/-- Whether a node of this kind has the wires that it cannot do without. -/
def isComplete (g : Graph) (m : SlotMap) (i : Nat) : NodeKind → Bool
  | .input _ | .output _ | .pulse _ _ => true
  | .gate _ _ => 2 ≤ (g.driverSlots m i).length
  | .not | .toggle _ | .range _ _ => 1 ≤ (g.driverSlots m i).length
  | .latch _ => (g.handleSlot m i "set").isSome && (g.handleSlot m i "reset").isSome
  | .compare _ => (g.handleSlot m i "a").isSome && (g.handleSlot m i "b").isSome
  | .shift _ _ => (g.handleSlot m i "data").isSome && (g.handleSlot m i "clock").isSome

variable {g : Graph} {m : SlotMap} {i : Nat}

theorem isSome_handleSlots (first second : String) : (g.handleSlots m i first second).isSome =
    ((g.handleSlot m i first).isSome && (g.handleSlot m i second).isSome) := by
  unfold handleSlots
  cases g.handleSlot m i first <;> cases g.handleSlot m i second <;> rfl

theorem isSome_readSlots (kind : NodeKind) :
    (g.readSlots m i kind).isSome = g.isComplete m i kind := by
  cases kind with
  | gate op fanIn =>
    by_cases hlen : (g.driverSlots m i).length < 2
    · simp [readSlots, isComplete, hlen]
    · simp [readSlots, isComplete, hlen, Nat.le_of_not_lt hlen]
  | not | toggle initial | range min max =>
    cases hs : g.driverSlots m i <;> simp [readSlots, isComplete, hs]
  | latch initial => exact isSome_handleSlots "set" "reset"
  | compare comparator => exact isSome_handleSlots "a" "b"
  | shift width initial =>
    simp only [readSlots, isComplete, Option.isSome_map]
    exact isSome_handleSlots "data" "clock"
  | _ => rfl

/-- A node has an instruction if it is an output or has a slot, and its wires are complete. -/
theorem isSome_emission (g : Graph) (m : SlotMap) (i : Nat) : (g.emission m i).isSome =
    (g.kindAt i).any fun kind => (kind.isSink || (m.get i).isSome) && g.isComplete m i kind := by
  unfold emission
  cases g.kindAt i with
  | none => rfl
  | some kind =>
    simp only [Option.bind_some, Option.any_some]
    split
    · simp [layOut, isSome_readSlots, *]
    · cases m.get i <;> simp [layOut, isSome_readSlots, *]

/-- An emission is laid out by the kind of the node. -/
theorem layOut_of_emission {ins : Instruction} (h : g.emission m i = some ins) :
    ∃ kind out, g.kindAt i = some kind ∧ g.layOut m i out kind = some ins := by
  obtain ⟨kind, hk, h⟩ := Option.bind_eq_some_iff.1 h
  split at h
  · exact ⟨kind, 0, hk, h⟩
  · obtain ⟨out, -, h⟩ := Option.bind_eq_some_iff.1 h
    exact ⟨kind, out, hk, h⟩

/-! ## What comes out -/

/-- A gate asks for as many inputs as its count says. -/
theorem fits_gate_iff {op : GateOp} {count out : UInt8} {inputs : List UInt8} :
    Instruction.Fits ⟨op.opcode, count :: inputs ++ [out]⟩ ↔ count.toNat = inputs.length := by
  cases op <;> simp [Instruction.Fits, GateOp.opcode, Opcode.operandSize, Opcode.layout]

theorem fits_gate (op : GateOp) {inputs : List UInt8} (out : UInt8) (h : inputs.length ≤ 255) :
    Instruction.Fits ⟨op.opcode, UInt8.ofNat inputs.length :: inputs ++ [out]⟩ :=
  fits_gate_iff.2 (UInt8.toNat_ofNat_of_lt' (by simp only [UInt8.size]; omega))

/-- A node that reads its first driver has an instruction if there is one. -/
theorem lays_first {slots : List UInt8} {res : Option Instruction} {make : List UInt8 → Instruction}
    {emit : UInt8 → Except CompileError (Option Instruction)}
    (h : (match slots with
      | [] => Except.ok none
      | s :: _ => emit s) = .ok res)
    (hemit : ∀ s, emit s = .ok res → res = some (make [s]) ∧ (make [s]).Fits) :
    res = (slots.head?.map fun s => [s]).map make ∧ ∀ ins ∈ res, ins.Fits := by
  cases slots with
  | nil =>
    cases h
    simp
  | cons s slots =>
    obtain ⟨rfl, hfits⟩ := hemit s h
    simpa using hfits

/-- A node that reads two named handles has an instruction if both have a driver. -/
theorem lays_handles {first second : String} {res : Option Instruction}
    {make : List UInt8 → Instruction}
    {emit : UInt8 → UInt8 → Except CompileError (Option Instruction)}
    (h : (match g.handleSlot m i first, g.handleSlot m i second with
      | some a, some b => emit a b
      | _, _ => .ok none) = .ok res)
    (hemit : ∀ a b, emit a b = .ok res → res = some (make [a, b]) ∧ (make [a, b]).Fits) :
    res = (g.handleSlots m i first second).map make ∧ ∀ ins ∈ res, ins.Fits := by
  unfold handleSlots
  cases ha : g.handleSlot m i first with
  | none =>
    rw [ha] at h
    cases h
    simp
  | some a =>
    cases hb : g.handleSlot m i second with
    | none =>
      rw [ha, hb] at h
      cases h
      simp
    | some b =>
      rw [ha, hb] at h
      obtain ⟨rfl, hfits⟩ := hemit a b h
      simpa using hfits

/-- What comes out for a producer is laid out by its kind, in as many operands as its opcode
asks for. -/
theorem produce_eq_ok {n : Node} {out : UInt8} {res : Option Instruction}
    (hsink : n.kind.isSink = false) (h : g.produce m i n out = .ok res) :
    res = g.layOut m i out n.kind ∧ ∀ ins ∈ res, ins.Fits := by
  unfold produce at h
  cases hk : n.kind with
  | input pin =>
    simp only [hk] at h
    obtain ⟨b, hb, hres⟩ := bind_eq_ok.1 h
    obtain ⟨-, rfl⟩ := pinOperand_eq_ok.1 hb
    cases hres
    rw [hk]
    refine ⟨rfl, ?_⟩
    rintro ins ⟨⟩
    by_cases ha : g.feedsAnalog i = true <;> simp [Instruction.Fits, ha] <;> rfl
  | output pin => simp [hk, NodeKind.isSink] at hsink
  | gate op fanIn =>
    simp only [hk] at h
    unfold layOut readSlots
    split at h
    · rename_i hlen
      cases h
      simp [hlen]
    · rename_i hlen
      obtain ⟨count, hc, hres⟩ := bind_eq_ok.1 h
      obtain ⟨hle, rfl⟩ := byteOperand_eq_ok.1 hc
      cases hres
      rw [if_neg hlen]
      refine ⟨rfl, ?_⟩
      rintro ins ⟨⟩
      exact fits_gate op out hle
  | not | toggle initial =>
    simp only [hk] at h
    refine lays_first h ?_
    intro s hres
    cases hres
    exact ⟨rfl, rfl⟩
  | latch initial =>
    simp only [hk] at h
    refine lays_handles h ?_
    intro set reset hres
    cases hres
    exact ⟨rfl, rfl⟩
  | pulse length interval =>
    simp only [hk] at h
    obtain ⟨bs, hb, h⟩ := bind_eq_ok.1 h
    obtain ⟨cs, hc, hres⟩ := bind_eq_ok.1 h
    obtain ⟨-, rfl⟩ := wordOperand_eq_ok.1 hb
    obtain ⟨-, rfl⟩ := wordOperand_eq_ok.1 hc
    cases hres
    refine ⟨rfl, ?_⟩
    rintro ins ⟨⟩
    rfl
  | range min max =>
    simp only [hk] at h
    refine lays_first h ?_
    intro s h
    obtain ⟨bs, hb, h⟩ := bind_eq_ok.1 h
    obtain ⟨cs, hc, hres⟩ := bind_eq_ok.1 h
    obtain ⟨-, rfl⟩ := wordOperand_eq_ok.1 hb
    obtain ⟨-, rfl⟩ := wordOperand_eq_ok.1 hc
    cases hres
    exact ⟨rfl, rfl⟩
  | compare comparator =>
    simp only [hk] at h
    refine lays_handles h ?_
    intro a b hres
    cases hres
    exact ⟨rfl, by cases comparator <;> rfl⟩
  | shift width initial =>
    simp only [hk] at h
    unfold layOut readSlots
    rw [Option.map_map]
    refine lays_handles h ?_
    intro data clock h
    obtain ⟨w, hw, h⟩ := bind_eq_ok.1 h
    obtain ⟨v, hv, hres⟩ := bind_eq_ok.1 h
    obtain ⟨-, rfl⟩ := byteOperand_eq_ok.1 hw
    obtain ⟨-, rfl⟩ := byteOperand_eq_ok.1 hv
    cases hres
    exact ⟨rfl, rfl⟩

theorem instruction_of_slot {n : Node} {out : UInt8} (hn : g.nodes[i]? = some n)
    (hsink : n.kind.isSink = false) (hout : m.get i = some out) :
    g.instruction m i = g.produce m i n out := by
  unfold instruction
  rw [hn, hout]
  cases hk : n.kind <;> simp_all [NodeKind.isSink]

theorem instruction_of_no_slot {n : Node} (hn : g.nodes[i]? = some n)
    (hsink : n.kind.isSink = false) (hout : m.get i = none) : g.instruction m i = .ok none := by
  unfold instruction
  rw [hn, hout]
  cases hk : n.kind <;> simp_all [NodeKind.isSink]

/-- Whatever the slots are, what comes out for a node is its emission, in as many operands as
its opcode asks for. -/
theorem instruction_eq_ok {res : Option Instruction} (h : g.instruction m i = .ok res) :
    res = g.emission m i ∧ ∀ ins ∈ res, ins.Fits := by
  unfold emission kindAt
  cases hn : g.nodes[i]? with
  | none =>
    unfold instruction at h
    rw [hn] at h
    cases h
    simp
  | some n =>
    rw [Option.map_some, Option.bind_some]
    by_cases hsink : n.kind.isSink = true
    · obtain ⟨pin, hk⟩ : ∃ pin, n.kind = .output pin := by
        cases hk : n.kind <;> simp_all [NodeKind.isSink]
      unfold instruction at h
      simp only [hn, hk] at h
      obtain ⟨b, hb, hres⟩ := bind_eq_ok.1 h
      obtain ⟨-, rfl⟩ := pinOperand_eq_ok.1 hb
      cases hres
      rw [if_pos hsink, hk]
      refine ⟨rfl, ?_⟩
      rintro ins ⟨⟩
      rfl
    · rw [if_neg hsink]
      have hsink : n.kind.isSink = false := by simpa using hsink
      cases hout : m.get i with
      | none =>
        rw [instruction_of_no_slot hn hsink hout] at h
        cases h
        simp
      | some out =>
        rw [instruction_of_slot hn hsink hout] at h
        exact produce_eq_ok hsink h

theorem fits_of_instruction {ins : Instruction} (h : g.instruction m i = .ok (some ins)) :
    ins.Fits :=
  (instruction_eq_ok h).2 ins rfl

end Graph

end LogicWiring
