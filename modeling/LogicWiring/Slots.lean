-- The value cells of the controller: each node that gives a value on gets a
-- slot, numbered from zero in the order of evaluation. Sinks get none.
import LogicWiring.Order

namespace LogicWiring

/-- A slot operand with this value means that nothing is wired. -/
def unconnected : UInt8 := 255

/-- A slot number is one byte, and one value is kept for `unconnected`. -/
def maxSlots : Nat := unconnected.toNat

/-- The slot of each node by position, and the number of slots to reserve. -/
structure SlotMap where
  slots : List (Option UInt8)
  count : Nat
  deriving DecidableEq, Repr

namespace SlotMap

def get (m : SlotMap) (i : Nat) : Option UInt8 := (m.slots[i]?).getD none

/-- Ids and slots, by slot and then in node order. -/
def assignments (m : SlotMap) (g : Graph) : List (String × UInt8) :=
  (m.slots.zipIdx.filterMap fun (slot, i) => slot.map fun s => (g.idAt i, s)).mergeSort
    fun a b => a.2 ≤ b.2

end SlotMap

namespace Graph

def producerCount (g : Graph) : Nat := g.nodes.countP fun n => !n.kind.isSink

/-- Hands out the slots from `next` on along an order. The number wraps after 255, and a
later visit of a node replaces its slot. -/
def handOut (g : Graph) : List Nat → UInt8 → List (Option UInt8) → List (Option UInt8)
  | [], _, slots => slots
  | i :: rest, next, slots =>
    if g.isSinkAt i then g.handOut rest next slots
    else g.handOut rest (next + 1) (slots.set i (some next))

def allocate (g : Graph) (order : List Nat) : Except CompileError SlotMap :=
  if g.producerCount > maxSlots then .error (.slotOverflow g.producerCount maxSlots)
  else .ok {
    slots := g.handOut order 0 (List.replicate g.nodes.length none)
    count := g.producerCount }

end Graph

end LogicWiring
