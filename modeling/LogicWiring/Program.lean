-- Programs: the pin modes of the live inputs and outputs, then an instruction
-- for each live node in the order of evaluation. A node whose settings or
-- wires are not complete has no instruction.
import LogicWiring.Slots
import LogicWiring.Liveness
import LogicWiring.Instruction

namespace LogicWiring

/-- The bytes to send to the controller, the number of slots it has to keep, and the
place of the first byte after the pin modes. -/
structure Program where
  bytes : List UInt8
  slotCount : Nat
  bodyOffset : Nat
  deriving DecidableEq, Repr

/-! ## Operands -/

/-- A value of a node as an operand of one byte. -/
def byteOperand (n : Node) (field : OperandField) (value : Nat) : Except CompileError UInt8 :=
  if value ≤ 255 then .ok (UInt8.ofNat value)
  else .error (.operandRange n.id field value 255)

/-- A value of a node as an operand of two bytes, the low byte first. -/
def wordOperand (n : Node) (field : OperandField) (value : UInt32) :
    Except CompileError (List UInt8) :=
  if value.toNat ≤ 65535 then
    .ok [UInt8.ofNat (value.toNat % 256), UInt8.ofNat (value.toNat / 256)]
  else .error (.operandRange n.id field value.toNat 65535)

def pinOperand (n : Node) : Except CompileError UInt8 :=
  byteOperand n .pin (n.kind.pin.getD 0).toNat

def flagByte (b : Bool) : UInt8 := if b then 1 else 0

namespace Graph

/-- The slots of the nodes that drive a node, in edge order. Drivers without a slot do
not count. -/
def driverSlots (g : Graph) (m : SlotMap) (i : Nat) : List UInt8 :=
  (g.linksInto i).filterMap fun l => m.get l.source

/-- The slot of the first driver of a handle. -/
def handleSlot (g : Graph) (m : SlotMap) (i : Nat) (handle : String) : Option UInt8 :=
  ((g.linksInto i).find? (·.handle = handle)).bind fun l => m.get l.source

/-! ## Instructions -/

/-- The pin mode of an input or output that has a pin. -/
def pinMode (n : Node) : Except CompileError (Option Instruction) :=
  match n.kind with
  | .input (some _) => do return some ⟨.setPinModeInput, [← pinOperand n]⟩
  | .output (some _) => do return some ⟨.setPinModeOutput, [← pinOperand n]⟩
  | _ => .ok none

/-- The instruction of a node that gives its value to the slot `out`. -/
def produce (g : Graph) (m : SlotMap) (i : Nat) (n : Node) (out : UInt8) :
    Except CompileError (Option Instruction) :=
  let inputs := g.driverSlots m i
  let handle := g.handleSlot m i
  match n.kind with
  | .output _ => .ok none
  | .input _ => do
    let op := if g.feedsAnalog i then Opcode.readAnalogPin else Opcode.readPin
    return some ⟨op, [← pinOperand n, out]⟩
  | .gate op _ =>
    if inputs.length < 2 then .ok none
    else do
      let count ← byteOperand n .inputCount inputs.length
      return some ⟨op.opcode, count :: inputs ++ [out]⟩
  | .not =>
    match inputs with
    | [] => .ok none
    | input :: _ => .ok (some ⟨.not, [input, out]⟩)
  | .latch initial =>
    match handle "set", handle "reset" with
    | some set, some reset => .ok (some ⟨.latch, [set, reset, out, flagByte initial]⟩)
    | _, _ => .ok none
  | .pulse length interval => do
    let length ← wordOperand n .pulseLength length
    let interval ← wordOperand n .interval interval
    return some ⟨.pulse, out :: length ++ interval⟩
  | .toggle initial =>
    match inputs with
    | [] => .ok none
    | input :: _ => .ok (some ⟨.toggle, [input, out, flagByte initial]⟩)
  | .range min max =>
    match inputs with
    | [] => .ok none
    | input :: _ => do
      let min ← wordOperand n .min min
      let max ← wordOperand n .max max
      return some ⟨.analogRange, input :: min ++ max ++ [out]⟩
  | .compare comparator =>
    match handle "a", handle "b" with
    | some a, some b => .ok (some ⟨comparator.opcode, [a, b, out]⟩)
    | _, _ => .ok none
  | .shift width initial =>
    match handle "data", handle "clock" with
    | some data, some clock => do
      let reset := (handle "reset").getD unconnected
      let width ← byteOperand n .outputWidth width.toNat
      let initial ← byteOperand n .initialState initial.toNat
      return some ⟨.shiftRegister, [data, clock, reset, width, initial, out]⟩
    | _, _ => .ok none

/-- The instruction of the node at a position. An output writes its first driver to its
pin, slot 0 if it has none. Other nodes need a slot. -/
def instruction (g : Graph) (m : SlotMap) (i : Nat) : Except CompileError (Option Instruction) :=
  match g.nodes[i]? with
  | none => .ok none
  | some n =>
    match n.kind, m.get i with
    | .output _, _ => do
      let pin ← pinOperand n
      return some ⟨.writePin, [pin, (g.driverSlots m i).headD 0]⟩
    | _, some out => g.produce m i n out
    | _, none => .ok none

/-! ## The program -/

/-- The pin modes of the live nodes that the author drew, in node order. -/
def preamble (g : Graph) (live : List Bool) : Except CompileError (List Instruction) := do
  let chosen := g.nodes.zipIdx.filter fun (n, i) => !n.synthetic && live[i]?.getD false
  let modes ← chosen.mapM fun (n, _) => pinMode n
  return modes.filterMap id

/-- The instructions of the live nodes of an order. -/
def body (g : Graph) (order : List Nat) (m : SlotMap) (live : List Bool) :
    Except CompileError (List Instruction) := do
  let instructions ← (order.filter fun i => live[i]?.getD false).mapM (g.instruction m)
  return instructions.filterMap id

/-- The program for an order and a slot map. The first value that does not fit its
operand is reported, the pin modes first. -/
def program (g : Graph) (order : List Nat) (m : SlotMap) : Except CompileError Program := do
  let live := g.liveness order
  let preamble ← g.preamble live
  let body ← g.body order m live
  return {
    bytes := encode preamble ++ encode body
    slotCount := m.count
    bodyOffset := (encode preamble).length }

end Graph

end LogicWiring
