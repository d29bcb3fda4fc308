-- What a graph computes, told on the graph: the value of a node follows from
-- the values of the nodes that drive it, by recursion along the edges. Slots,
-- orders and bytes do not come into it.
import LogicWiring.Program
import LogicWiring.Proofs.Controller
import LogicWiring.Proofs.LiveNodes
import LogicWiring.Proofs.SlotTable

namespace LogicWiring

universe u

/-- How a node gets its value: the instruction it stands for, with nodes in place of slots. -/
structure Recipe where
  opcode : Opcode
  settings : List UInt8 := []
  pin : Option UInt8 := none
  sources : List Nat := []
  deriving DecidableEq, Repr

/-- A setting in two bytes, the low byte first. -/
def wordBytes (value : UInt32) : List UInt8 :=
  [UInt8.ofNat (value.toNat % 256), UInt8.ofNat (value.toNat / 256)]

namespace Graph

/-! ## Drivers -/

/-- The nodes that give a node a value, in edge order. Sinks give none. -/
def producers (g : Graph) (i : Nat) : List Nat :=
  ((g.linksInto i).map Link.source).filter g.isProducerAt

/-- The node behind the first edge into a handle, if it gives a value. -/
def driver (g : Graph) (i : Nat) (handle : String) : Option Nat :=
  (((g.linksInto i).find? (·.handle = handle)).map Link.source).filter g.isProducerAt

/-- The first node feeds the second, and gives it a value. -/
def Drives (g : Graph) (j i : Nat) : Prop := g.Feeds j i ∧ g.isProducerAt j = true

theorem drives_of_mem_producers {g : Graph} {i j : Nat} (h : j ∈ g.producers i) :
    g.Drives j i := by
  obtain ⟨hm, hp⟩ := List.mem_filter.1 h
  obtain ⟨l, hl, rfl⟩ := List.mem_map.1 hm
  exact ⟨feeds_of_mem_linksInto hl, hp⟩

theorem drives_of_driver {g : Graph} {i j : Nat} {handle : String}
    (h : g.driver i handle = some j) : g.Drives j i := by
  obtain ⟨h, hp⟩ := Option.filter_eq_some_iff.1 h
  obtain ⟨l, hl, rfl⟩ := Option.map_eq_some_iff.1 h
  exact ⟨feeds_of_mem_linksInto (List.mem_of_find?_eq_some hl), hp⟩

/-! ## Recipes -/

def both (g : Graph) (i : Nat) (first second : String) : Option (List Nat) :=
  match g.driver i first, g.driver i second with
  | some a, some b => some [a, b]
  | _, _ => none

/-- The nodes that a node of this kind reads. Nothing if it gives no value or its wires or its
pin are missing. -/
def operands (g : Graph) (i : Nat) : NodeKind → Option (List Nat)
  | .output _ | .input none => none
  | .input (some _) | .pulse _ _ => some []
  | .gate _ _ => if (g.producers i).length < 2 then none else some (g.producers i)
  | .not | .toggle _ | .range _ _ => (g.producers i).head?.map fun j => [j]
  | .latch _ => g.both i "set" "reset"
  | .compare _ => g.both i "a" "b"
  | .shift _ _ => (g.both i "data" "clock").map fun js => js ++ (g.driver i "reset").toList

def opcodeAt (g : Graph) (i : Nat) : NodeKind → Opcode
  | .input _ => if g.feedsAnalog i then .readAnalogPin else .readPin
  | .output _ => .writePin
  | .gate op _ => op.opcode
  | .not => .not
  | .latch _ => .latch
  | .pulse _ _ => .pulse
  | .toggle _ => .toggle
  | .range _ _ => .analogRange
  | .compare comparator => comparator.opcode
  | .shift _ _ => .shiftRegister

end Graph

/-- The operand bytes that are not slots, for a node that reads `inputs` nodes. -/
def NodeKind.settings (inputs : Nat) : NodeKind → List UInt8
  | .input pin | .output pin => [(pin.getD 0).toUInt8]
  | .gate _ _ => [UInt8.ofNat inputs]
  | .not | .compare _ => []
  | .latch initial | .toggle initial => [flagByte initial]
  | .pulse a b | .range a b => wordBytes a ++ wordBytes b
  | .shift width initial => [width.toUInt8, initial.toUInt8]

namespace Graph

def recipe (g : Graph) (i : Nat) : Option Recipe :=
  (g.kindAt i).bind fun kind => (g.operands i kind).map fun sources => {
    opcode := g.opcodeAt i kind
    settings := kind.settings sources.length
    pin := kind.pin.map UInt32.toUInt8
    sources }

theorem drives_of_both {g : Graph} {i j : Nat} {first second : String} {js : List Nat}
    (h : g.both i first second = some js) (hj : j ∈ js) : g.Drives j i := by
  unfold both at h
  split at h
  · rename_i a b ha hb
    cases h
    rcases List.mem_cons.1 hj with rfl | hj
    · exact drives_of_driver ha
    · exact drives_of_driver (List.mem_singleton.1 hj ▸ hb)
  · simp at h

theorem drives_of_operands {g : Graph} {i j : Nat} {kind : NodeKind} {js : List Nat}
    (h : g.operands i kind = some js) (hj : j ∈ js) : g.Drives j i := by
  have hfirst : ∀ {ks : List Nat}, (g.producers i).head?.map (fun j => [j]) = some ks →
      j ∈ ks → g.Drives j i := by
    intro ks hks hjk
    obtain ⟨k, hk, rfl⟩ := Option.map_eq_some_iff.1 hks
    cases List.mem_singleton.1 hjk
    exact drives_of_mem_producers (List.mem_of_head? hk)
  cases kind with
  | input pin => cases pin <;> simp_all [operands]
  | output pin => simp [operands] at h
  | gate op fanIn =>
    simp only [operands] at h
    split at h
    · simp at h
    · cases h
      exact drives_of_mem_producers hj
  | not => exact hfirst h hj
  | latch initial => exact drives_of_both h hj
  | pulse length interval => simp_all [operands]
  | toggle initial => exact hfirst h hj
  | range min max => exact hfirst h hj
  | compare comparator => exact drives_of_both h hj
  | shift width initial =>
    obtain ⟨ks, hks, rfl⟩ := Option.map_eq_some_iff.1 h
    rcases List.mem_append.1 hj with hj | hj
    · exact drives_of_both hks hj
    · exact drives_of_driver (Option.mem_toList.1 hj)

theorem drives_of_mem_sources {g : Graph} {i j : Nat} {r : Recipe} (hr : g.recipe i = some r)
    (hj : j ∈ r.sources) : g.Drives j i := by
  obtain ⟨kind, -, hr⟩ := Option.bind_eq_some_iff.1 hr
  obtain ⟨sources, hs, rfl⟩ := Option.map_eq_some_iff.1 hr
  exact drives_of_operands hs hj

/-! ## Values -/

variable {V : Type u}

open Classical in
/-- The value of a node, given those of the nodes that feed it. A node that is dead or has no
recipe keeps what its slot held at the start. -/
noncomputable def valueRule (g : Graph) (F : Interpretation V) (pins : UInt8 → V)
    (start : Nat → V) (i : Nat) (value : ∀ j, g.Feeds j i → V) : V :=
  if g.Live i then
    match h : g.recipe i with
    | none => start i
    | some r =>
      F { opcode := r.opcode, settings := r.settings, pin := r.pin.map pins
          inputs := r.sources.attach.map fun j => value j.1 (drives_of_mem_sources h j.2).1
          old := start i }
  else start i

/-- The value of each node of a graph without cycles. -/
noncomputable def value (g : Graph) (acyclic : WellFounded g.Feeds) (F : Interpretation V)
    (pins : UInt8 → V) (start : Nat → V) (i : Nat) : V :=
  acyclic.fix (g.valueRule F pins start) i

variable {g : Graph} {acyclic : WellFounded g.Feeds} {F : Interpretation V} {pins : UInt8 → V}
  {start : Nat → V} {i : Nat}

theorem value_of_not_live (h : ¬ g.Live i) : g.value acyclic F pins start i = start i := by
  rw [value, WellFounded.fix_eq, valueRule, if_neg h]

theorem value_of_no_recipe (h : g.recipe i = none) : g.value acyclic F pins start i = start i := by
  rw [value, WellFounded.fix_eq, valueRule]
  split
  · split
    · rfl
    · rename_i hr
      simp [h] at hr
  · rfl

theorem value_of_recipe {r : Recipe} (hl : g.Live i) (h : g.recipe i = some r) :
    g.value acyclic F pins start i =
      F { opcode := r.opcode, settings := r.settings, pin := r.pin.map pins
          inputs := r.sources.map (g.value acyclic F pins start), old := start i } := by
  rw [value, WellFounded.fix_eq, valueRule, if_pos hl]
  split
  · rename_i hn
    simp [h] at hn
  · rename_i r' hr
    cases h.symm.trans hr
    rw [List.map_attach_eq_pmap, List.pmap_eq_map]
    rfl

end Graph

end LogicWiring
