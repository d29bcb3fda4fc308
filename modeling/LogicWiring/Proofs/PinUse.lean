-- The pins of a program. The pin modes go through the nodes as the author
-- drew them, the body in the order of evaluation, and both choose the live
-- inputs and outputs. Main statement: `compile_configures_used_pins`.
import LogicWiring.Proofs.Acceptance

namespace LogicWiring

/-- Whether a pin is read or written. -/
inductive PinDirection
  | input | output
  deriving DecidableEq, Repr

/-- The direction that an instruction with this opcode sets its pin to. -/
def Opcode.configures : Opcode → Option PinDirection
  | setPinModeInput => some .input
  | setPinModeOutput => some .output
  | _ => none

/-- The direction in which an instruction with this opcode uses its pin. -/
def Opcode.touches : Opcode → Option PinDirection
  | readPin | readAnalogPin => some .input
  | writePin => some .output
  | _ => none

/-- The pin of an instruction, which is its first operand, if its opcode has a direction. -/
def Instruction.pinUse (direction : Opcode → Option PinDirection) (ins : Instruction) :
    Option (PinDirection × Nat) :=
  (direction ins.opcode).bind fun d => ins.operands.head?.map fun pin => (d, pin.toNat)

theorem toNat_toUInt8 {pin : UInt32} (h : pin.toNat ≤ 255) : pin.toUInt8.toNat = pin.toNat := by
  rw [UInt32.toNat_toUInt8]
  omega

namespace NodeKind

def direction : NodeKind → Option PinDirection
  | input _ => some .input
  | output _ => some .output
  | _ => none

/-- The pin of an input or output that has one. -/
def pinUse (kind : NodeKind) : Option (PinDirection × Nat) :=
  kind.direction.bind fun d => kind.pin.map fun pin => (d, pin.toNat)

/-! ## One node -/

theorem pinUse_pinMode {kind : NodeKind} (hpin : ∀ pin, kind.pin = some pin → pin.toNat ≤ 255) :
    kind.pinMode.bind (Instruction.pinUse Opcode.configures) = kind.pinUse := by
  cases kind with
  | input pin | output pin =>
    cases pin with
    | none => rfl
    | some pin =>
      simp [pinMode, pinUse, NodeKind.pin, direction, isSink, Instruction.pinUse, Opcode.configures,
        toNat_toUInt8 (hpin pin rfl)]
  | _ => rfl

end NodeKind

namespace Graph

variable {g : Graph} {m : SlotMap} {i : Nat} {order : List Nat}

theorem touches_opcodeAt (g : Graph) (i : Nat) (kind : NodeKind) :
    (g.opcodeAt i kind).touches = kind.direction := by
  cases kind with
  | input pin => cases ha : g.feedsAnalog i <;> simp [opcodeAt, ha, Opcode.touches, NodeKind.direction]
  | gate op fanIn => cases op <;> rfl
  | compare comparator => cases comparator <;> rfl
  | _ => rfl

theorem pinUse_layOut (out : UInt8) (kind : NodeKind) :
    (g.layOut m i out kind).bind (Instruction.pinUse Opcode.touches) =
      (g.readSlots m i kind).bind fun slots => kind.direction.bind fun d =>
        (kind.operandBytes slots out).head?.map fun b => (d, b.toNat) := by
  simp [layOut, Option.bind_map, Function.comp_def, Instruction.pinUse, touches_opcodeAt]

/-- The instruction of a live node uses the pin of the node, and no pin if the node has none. -/
theorem pinUse_emission {n : Node} (hs : m.Serves g) (hl : g.Live i) (hn : g.nodes[i]? = some n)
    (hpin : ∀ pin, n.kind.pin = some pin → pin.toNat ≤ 255) :
    (g.emission m i).bind (Instruction.pinUse Opcode.touches) = n.kind.pinUse := by
  have hk := kindAt_of_getElem? hn
  unfold emission
  rw [hk, Option.bind_some]
  cases hkind : n.kind with
  | input pin =>
    cases pin with
    | none => exact absurd (hkind ▸ hk) hl.ne_pinless
    | some pin =>
      have hsink : g.isSinkAt i = false := by simp [isSinkAt_of_getElem? hn, hkind, NodeKind.isSink]
      obtain ⟨out, hout⟩ := hs.exists_slot hl.lt_length hsink
      simp [hout, pinUse_layOut, readSlots, NodeKind.isSink, NodeKind.direction,
        NodeKind.operandBytes, NodeKind.pinUse, NodeKind.pin,
        toNat_toUInt8 (hpin pin (by rw [hkind]; rfl))]
  | output pin =>
    cases pin with
    | none => exact absurd (hkind ▸ hk) hl.ne_unrouted
    | some pin =>
      simp [pinUse_layOut, readSlots, NodeKind.isSink, NodeKind.direction, NodeKind.operandBytes,
        NodeKind.pinUse, NodeKind.pin, toNat_toUInt8 (hpin pin (by rw [hkind]; rfl))]
  | _ => simp [pinUse_layOut, NodeKind.isSink, NodeKind.direction, NodeKind.pinUse, Option.bind_assoc]

/-! ## All nodes -/

/-- The pin of the node at a position, if it is an input or output that has one. -/
def pinUseAt (g : Graph) (i : Nat) : Option (PinDirection × Nat) :=
  (g.kindAt i).bind NodeKind.pinUse

theorem pinUseAt_of_getElem? {n : Node} (hn : g.nodes[i]? = some n) :
    g.pinUseAt i = n.kind.pinUse := by
  rw [pinUseAt, kindAt_of_getElem? hn, Option.bind_some]

/-- Behind the nodes of the author come only merges, which have no pin. -/
theorem pinUseAt_of_le (h : g.nodes.length ≤ i) : g.normalize.graph.pinUseAt i = none := by
  have hnodes : g.normalize.graph.nodes = g.nodes ++ g.merges.map Merge.toNode := rfl
  rw [pinUseAt, kindAt, hnodes, List.getElem?_append_right h, List.getElem?_map]
  cases g.merges[i - g.nodes.length]? <;> rfl

theorem pinUses_authored (g : Graph) (live : List Bool) :
    ((g.nodes.zipIdx.filter fun (_, i) => live[i]?.getD false).filterMap
      fun (node, _) => node.kind.pinUse) =
      ((List.range g.nodes.length).filter fun i => live[i]?.getD false).filterMap
        g.normalize.graph.pinUseAt := by
  have hrange : List.range g.nodes.length = g.nodes.zipIdx.map Prod.snd := by
    simp [List.range_eq_range']
  rw [hrange, List.filter_map, List.filterMap_map]
  apply List.filterMap_congr
  rintro ⟨node, i⟩ hmem
  have hn := getElem?_normalize (List.mem_zipIdx_iff_getElem?.1 (List.mem_filter.1 hmem).1)
  exact (pinUseAt_of_getElem? hn).symm

/-- An order holds every node once, so along it the same pins are used as along the nodes of the
author. -/
theorem pinUses_perm (ho : g.normalize.graph.IsOrder order) (live : List Bool) :
    ((g.nodes.zipIdx.filter fun (_, i) => live[i]?.getD false).filterMap
      fun (node, _) => node.kind.pinUse).Perm
    ((order.filter fun i => live[i]?.getD false).filterMap g.normalize.graph.pinUseAt) := by
  have hmerges : (((List.range g.merges.length).map (g.nodes.length + ·)).filter
      fun i => live[i]?.getD false).filterMap g.normalize.graph.pinUseAt = [] := by
    rw [List.filterMap_eq_nil_iff]
    intro i hmem
    obtain ⟨k, -, rfl⟩ := List.mem_map.1 (List.mem_filter.1 hmem).1
    exact pinUseAt_of_le (Nat.le_add_right _ _)
  have hlength : g.normalize.graph.nodes.length = g.nodes.length + g.merges.length := by
    simp [normalize]
  have hperm := ((ho.perm_range.filter fun i => live[i]?.getD false).filterMap
    g.normalize.graph.pinUseAt).symm
  rwa [hlength, List.range_add, List.filter_append, List.filterMap_append, hmerges, List.append_nil,
    ← pinUses_authored] at hperm

end Graph

namespace Graph.Compiled

variable {g : Graph} {p : Program} {order : List Nat} {m : SlotMap}
  {modes body : List Instruction}

/-- The pin of a live node fits one byte. -/
theorem pin_le (hc : g.Compiled p order m modes body) {i : Nat} {node : Node}
    (hl : g.normalize.graph.Live i) (hn : g.normalize.graph.nodes[i]? = some node)
    {pin : UInt32} (hp : node.kind.pin = some pin) : pin.toNat ≤ 255 := by
  have hmem : i ∈ order.filter fun i =>
      (g.normalize.graph.liveness order)[i]?.getD false :=
    List.mem_filter.2 ⟨(hc.isOrder.mem_iff i).2 hl.lt_length, (hc.live_iff i).2 hl⟩
  have hlimit : ⟨node.id, .pin, pin.toNat, 255⟩ ∈ g.normalize.graph.limitsAt m i := by
    rw [limitsAt_eq hc.serves]
    exact pinLimits_subset hn (by simp [Node.pinLimits, hp])
  have hfits := (body_checks _ order m _).eq_ok_iff.1 ⟨body, hc.body_eq⟩
  exact hfits _ (List.mem_flatMap.2 ⟨i, hmem, hlimit⟩)

theorem pinUses_modes (hc : g.Compiled p order m modes body)
    (hdrawn : ∀ node ∈ g.nodes, node.synthetic = false) :
    modes.filterMap (Instruction.pinUse Opcode.configures) =
      (g.nodes.zipIdx.filter fun (_, i) =>
        (g.normalize.graph.liveness order)[i]?.getD false).filterMap
          fun (node, _) => node.kind.pinUse := by
  rw [preamble_eq_ok hc.modes_eq, zipIdx_drawn hdrawn, List.filterMap_filterMap]
  apply List.filterMap_congr
  rintro ⟨node, i⟩ hmem
  obtain ⟨hnode, hi⟩ := List.mem_filter.1 hmem
  have hn := getElem?_normalize (List.mem_zipIdx_iff_getElem?.1 hnode)
  exact NodeKind.pinUse_pinMode fun pin hp => hc.pin_le ((hc.live_iff i).1 hi) hn hp

theorem pinUses_body (hc : g.Compiled p order m modes body) :
    body.filterMap (Instruction.pinUse Opcode.touches) =
      (order.filter fun i => (g.normalize.graph.liveness order)[i]?.getD false).filterMap
        g.normalize.graph.pinUseAt := by
  rw [body_eq_ok hc.body_eq, List.filterMap_filterMap]
  apply List.filterMap_congr
  intro i hmem
  have hl := (hc.live_iff i).1 (List.mem_filter.1 hmem).2
  obtain ⟨node, hn⟩ := hl.exists_node
  rw [pinUseAt_of_getElem? hn]
  exact pinUse_emission hc.serves hl hn fun pin hp => hc.pin_le hl hn hp

end Graph.Compiled

/-! ## Programs -/

/-- A pin is configured as often as it is used, and in the same direction. The first part of a
program only sets pin modes, those of the live inputs and outputs as the author listed them. The
second part sets none, and uses the pins of the same nodes in the order of evaluation. -/
theorem compile_configures_used_pins {g : Graph} {p : Program}
    (hdrawn : ∀ node ∈ g.nodes, node.synthetic = false) (h : compile g = .ok p) :
    ∃ (order : List Nat) (modes body : List Instruction),
      let n := g.normalize.graph
      let live := n.liveness order
      n.evaluationOrder = .ok order ∧
      decode (p.bytes.take p.bodyOffset) = .ok (placeFrom 0 modes) ∧
      decode (p.bytes.drop p.bodyOffset) = .ok (placeFrom 0 body) ∧
      (∀ ins ∈ modes, ins.opcode.isPinMode = true) ∧
      (∀ ins ∈ body, ins.opcode.isPinMode = false) ∧
      (modes.filterMap (Instruction.pinUse Opcode.configures)).Perm
        (body.filterMap (Instruction.pinUse Opcode.touches)) ∧
      modes.filterMap (Instruction.pinUse Opcode.configures) =
        (g.nodes.zipIdx.filter fun (_, i) => live[i]?.getD false).filterMap
          (fun (node, _) => node.kind.pinUse) ∧
      body.filterMap (Instruction.pinUse Opcode.touches) =
        (order.filter fun i => live[i]?.getD false).filterMap n.pinUseAt := by
  obtain ⟨order, m, modes, body, hc⟩ := compiled_of_compile h
  have hmodes := hc.pinUses_modes hdrawn
  have hbody := hc.pinUses_body
  refine ⟨order, modes, body, hc.order_eq, hc.decode_modes, hc.decode_body, ?_, ?_, ?_, hmodes, hbody⟩
  · intro ins hins
    exact (Graph.of_mem_preamble hc.modes_eq hins).2
  · intro ins hins
    exact (Graph.of_mem_body hc.body_eq hins).2
  · rw [hmodes, hbody]
    exact Graph.pinUses_perm hc.isOrder _

/-- Two inputs on one pin, one of them read by a range; an output with a wire that leads on; and
an input that only feeds an output without a pin. -/
def sharedPin : Graph where
  nodes := [
    { id := "o", kind := .output (some 13) }, { id := "a", kind := .input (some 14) },
    { id := "r", kind := .range 100 900 }, { id := "d", kind := .input (some 7) },
    { id := "x", kind := .output none }, { id := "y", kind := .output none },
    { id := "b", kind := .input (some 14) }, { id := "q", kind := .output (some 9) }]
  edges := [
    { source := "a", target := "r" }, { source := "r", target := "o" },
    { source := "d", target := "x" }, { source := "o", target := "y" },
    { source := "b", target := "q" }]
  ids_nodup := by decide
  ends_known := by decide

def sharedPinProgram : Program where
  bytes := [2, 13, 1, 14, 1, 14, 2, 9,
    5, 14, 0, 3, 14, 2, 19, 0, 100, 0, 132, 3, 3, 4, 9, 2, 4, 13, 3]
  slotCount := 4
  bodyOffset := 8

theorem compile_sharedPin : compile sharedPin = .ok sharedPinProgram := by
  have hsame : sharedPin.normalize.graph = sharedPin :=
    Graph.ext_nodes_edges (by cbv) (by cbv)
  have hlive : sharedPin.liveness [1, 3, 6, 2, 4, 7, 0, 5] =
      [true, true, true, false, false, false, true, true] := by decide
  have ho : sharedPin.evaluationOrder = .ok [1, 3, 6, 2, 4, 7, 0, 5] := by cbv
  have hm : sharedPin.allocate [1, 3, 6, 2, 4, 7, 0, 5] =
      .ok { slots := [none, some 0, some 3, some 1, none, none, some 2, none], count := 4 } := by cbv
  rw [compile_of_stages hsame ho hm, Graph.program, hlive]
  cbv

theorem sharedPin_configures_used_pins :
    (∀ node ∈ sharedPin.nodes, node.synthetic = false) ∧
    compile sharedPin = .ok sharedPinProgram ∧
    ∃ (order : List Nat) (modes body : List Instruction),
      let n := sharedPin.normalize.graph
      let live := n.liveness order
      n.evaluationOrder = .ok order ∧
      decode (sharedPinProgram.bytes.take sharedPinProgram.bodyOffset) = .ok (placeFrom 0 modes) ∧
      decode (sharedPinProgram.bytes.drop sharedPinProgram.bodyOffset) = .ok (placeFrom 0 body) ∧
      (∀ ins ∈ modes, ins.opcode.isPinMode = true) ∧
      (∀ ins ∈ body, ins.opcode.isPinMode = false) ∧
      (modes.filterMap (Instruction.pinUse Opcode.configures)).Perm
        (body.filterMap (Instruction.pinUse Opcode.touches)) ∧
      modes.filterMap (Instruction.pinUse Opcode.configures) =
        (sharedPin.nodes.zipIdx.filter fun (_, i) => live[i]?.getD false).filterMap
          (fun (node, _) => node.kind.pinUse) ∧
      body.filterMap (Instruction.pinUse Opcode.touches) =
        (order.filter fun i => live[i]?.getD false).filterMap n.pinUseAt := by
  have hdrawn : ∀ node ∈ sharedPin.nodes, node.synthetic = false := by decide
  exact ⟨hdrawn, compile_sharedPin, compile_configures_used_pins hdrawn compile_sharedPin⟩

end LogicWiring
