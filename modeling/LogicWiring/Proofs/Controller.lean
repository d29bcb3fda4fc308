-- The controller that runs a program. What an instruction computes is left
-- open: a value may depend on the opcode, on its settings, on the values of
-- its inputs, on a pin and on what its slot held.
import LogicWiring.Slots
import LogicWiring.Instruction
import Mathlib.Logic.Function.Basic

namespace LogicWiring

universe u

/-- The operands by their parts: slots that are read, the slot that is written, the pin, and
all bytes that are not slots. -/
structure Access where
  settings : List UInt8 := []
  pin : Option UInt8 := none
  inputs : List UInt8 := []
  out : Option UInt8 := none
  deriving DecidableEq, Repr

/-- Operands that do not fit the opcode give nothing. -/
def Instruction.access (i : Instruction) : Access :=
  match i.opcode, i.operands with
  | .setPinModeInput, [pin] | .setPinModeOutput, [pin] => { settings := [pin], pin := some pin }
  | .readPin, [pin, out] | .readAnalogPin, [pin, out] =>
    { settings := [pin], pin := some pin, out := some out }
  | .writePin, [pin, source] | .writeAnalogPin, [pin, source] =>
    { settings := [pin], pin := some pin, inputs := [source] }
  | .not, [input, out] => { inputs := [input], out := some out }
  | .and, count :: rest | .or, count :: rest | .nand, count :: rest | .nor, count :: rest
  | .xor, count :: rest =>
    { settings := [count], inputs := rest.take count.toNat, out := rest[count.toNat]? }
  | .latch, [set, reset, out, initial] =>
    { settings := [initial], inputs := [set, reset], out := some out }
  | .pulse, [out, l0, l1, i0, i1] => { settings := [l0, l1, i0, i1], out := some out }
  | .toggle, [input, out, initial] =>
    { settings := [initial], inputs := [input], out := some out }
  | .analogRange, [input, min0, min1, max0, max1, out] =>
    { settings := [min0, min1, max0, max1], inputs := [input], out := some out }
  | .compareGt, [a, b, out] | .compareGe, [a, b, out] | .compareLt, [a, b, out]
  | .compareLe, [a, b, out] | .compareEq, [a, b, out] | .compareNe, [a, b, out] =>
    { inputs := [a, b], out := some out }
  | .shiftRegister, [data, clock, reset, width, initial, out] =>
    { settings := [width, initial]
      inputs := if reset = unconnected then [data, clock] else [data, clock, reset]
      out := some out }
  | .delay, [input, out, d0, d1] =>
    { settings := [d0, d1], inputs := [input], out := some out }
  | _, _ => {}

/-! ## One cycle -/

/-- All that the value of an instruction may depend on. -/
structure Reading (V : Type u) where
  opcode : Opcode
  settings : List UInt8
  pin : Option V
  inputs : List V
  old : V

/-- What the instructions compute. -/
abbrev Interpretation (V : Type u) : Type u := Reading V → V

/-- The slots, and the values that were written to pins so far. -/
structure Controller (V : Type u) where
  memory : UInt8 → V
  writes : List (UInt8 × V) := []

namespace Controller

variable {V : Type u}

/-- The value of an instruction that writes the slot `out`. -/
def result (F : Interpretation V) (pins : UInt8 → V) (memory : UInt8 → V) (i : Instruction)
    (out : UInt8) : V :=
  let a := i.access
  F { opcode := i.opcode, settings := a.settings, pin := a.pin.map pins
      inputs := a.inputs.map memory, old := memory out }

/-- An instruction with a slot to write gives it its value; one without, but with a pin,
writes its inputs to the pin. -/
def step (F : Interpretation V) (pins : UInt8 → V) (c : Controller V) (i : Instruction) :
    Controller V :=
  let a := i.access
  match a.out, a.pin with
  | some out, _ =>
    { c with memory := Function.update c.memory out (result F pins c.memory i out) }
  | none, some pin => { c with writes := c.writes ++ a.inputs.map fun s => (pin, c.memory s) }
  | none, none => c

def run (F : Interpretation V) (pins : UInt8 → V) (c : Controller V) (is : List Instruction) :
    Controller V :=
  is.foldl (step F pins) c

theorem run_append (F : Interpretation V) (pins : UInt8 → V) (c : Controller V)
    (is js : List Instruction) : run F pins c (is ++ js) = run F pins (run F pins c is) js :=
  List.foldl_append

theorem step_of_out {F : Interpretation V} {pins : UInt8 → V} {c : Controller V}
    {i : Instruction} {out : UInt8} (h : i.access.out = some out) :
    step F pins c i =
      { c with memory := Function.update c.memory out (result F pins c.memory i out) } := by
  simp [step, h]

theorem step_of_pin {F : Interpretation V} {pins : UInt8 → V} {c : Controller V}
    {i : Instruction} {pin : UInt8} (ho : i.access.out = none) (hp : i.access.pin = some pin) :
    step F pins c i =
      { c with writes := c.writes ++ i.access.inputs.map fun s => (pin, c.memory s) } := by
  simp [step, ho, hp]

end Controller

end LogicWiring
