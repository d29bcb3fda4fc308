-- What a body does with the slots. Each instruction writes the slot of its
-- own node and reads the slots of the nodes that drive it, which stand before
-- it in the order. Main statements: `compile_single_assignment` and
-- `compile_within_slots`.
import LogicWiring.Proofs.Simulation
import Mathlib

namespace LogicWiring

/-- The slots that instructions write, in their order. -/
def writtenSlots (is : List Instruction) : List UInt8 := is.filterMap fun i => i.access.out

theorem mem_writtenSlots {is : List Instruction} {s : UInt8} :
    s ∈ writtenSlots is ↔ ∃ ins ∈ is, ins.access.out = some s := List.mem_filterMap

theorem writtenSlots_append (is js : List Instruction) :
    writtenSlots (is ++ js) = writtenSlots is ++ writtenSlots js := List.filterMap_append

namespace Graph

variable {g : Graph} {m : SlotMap} {i : Nat} {order : List Nat} {live : List Bool}
  {is : List Instruction} {ins : Instruction}

/-! ## Nodes behind a body -/

/-- Each live node of an order has its instruction, if it has one, in the body. -/
theorem instruction_of_mem_order (h : g.body order m live = .ok is) (hi : i ∈ order)
    (hl : live[i]?.getD false = true) :
    ∃ res, g.instruction m i = .ok res ∧ ∀ ins, res = some ins → ins ∈ is := by
  induction order generalizing is with
  | nil => simp at hi
  | cons j rest ih =>
    obtain ⟨first, later, rfl, ha, hlater⟩ := body_cons h
    rcases List.mem_cons.1 hi with rfl | hi
    · unfold Adds at ha
      rw [if_pos hl] at ha
      obtain ⟨res, hres, rfl⟩ := ha
      refine ⟨res, hres, ?_⟩
      rintro ins rfl
      simp
    · obtain ⟨res, hres, hmem⟩ := ih hlater hi
      exact ⟨res, hres, fun ins he => List.mem_append_right _ (hmem ins he)⟩

/-- What stands before an instruction of a body is the body of what stands before its node. -/
theorem body_split {before after : List Instruction}
    (h : g.body order m live = .ok (before ++ ins :: after)) :
    ∃ earlier i later, order = earlier ++ i :: later ∧ live[i]?.getD false = true ∧
      g.instruction m i = .ok (some ins) ∧ g.body earlier m live = .ok before := by
  induction order generalizing before with
  | nil => cases before <;> cases h
  | cons j rest ih =>
    obtain ⟨first, later, hsplit, ha, hlater⟩ := body_cons h
    rcases ha.cases with rfl | ⟨x, rfl, hl, hres⟩
    · rw [List.nil_append] at hsplit
      obtain ⟨earlier, i, rest', rfl, hi, hins, hbefore⟩ := ih (hsplit ▸ hlater)
      exact ⟨j :: earlier, i, rest', rfl, hi, hins, body_of_adds ha hbefore⟩
    · cases before with
      | nil =>
        cases hsplit
        exact ⟨[], j, rest, rfl, hl, hres, rfl⟩
      | cons b before =>
        cases hsplit
        obtain ⟨earlier, i, rest', rfl, hi, hins, hbefore⟩ := ih hlater
        exact ⟨j :: earlier, i, rest', rfl, hi, hins, body_of_adds ha hbefore⟩

/-- The instruction of a live node is that of a producer with a recipe, or writes an output. -/
theorem instruction_cases (hs : m.Serves g) (hl : g.Live i)
    (h : g.instruction m i = .ok (some ins)) :
    (∃ out r, m.get i = some out ∧ g.recipe i = some r ∧ r.Realizes m out ins) ∨
    (∃ pin : UInt32, m.get i = none ∧ pin.toNat ≤ 255 ∧
      ins = ⟨.writePin, [pin.toUInt8, ((g.producers i).map m.slot).headD 0]⟩) := by
  cases hout : m.get i with
  | some out =>
    have hrel := instruction_of_producer hs hout hl h
    cases hr : g.recipe i with
    | none =>
      rw [hr] at hrel
      cases hrel
    | some r =>
      rw [hr] at hrel
      cases hrel with
      | some hreal => exact .inl ⟨out, r, rfl, rfl, hreal⟩
  | none =>
    have hsink := hs.isSinkAt_of_get_eq_none hl.lt_length hout
    obtain ⟨pin, hk⟩ := isRouted_iff.1 (isRouted_of_live hl hsink)
    obtain ⟨hle, hins⟩ := instruction_of_output hs hk h
    cases hins
    exact .inr ⟨pin, rfl, hle, rfl⟩

/-! ## Writes -/

/-- An instruction writes the slot of its node, and none if the node has no slot. -/
theorem out_of_instruction (hs : m.Serves g) (hl : g.Live i)
    (h : g.instruction m i = .ok (some ins)) : ins.access.out = m.get i := by
  rcases instruction_cases hs hl h with ⟨out, r, hout, -, hreal⟩ | ⟨pin, hout, -, rfl⟩
  · rw [hreal.access, hout]
  · rw [hout]
    rfl

section

variable (hs : m.Serves g) (hlive : ∀ j, live[j]?.getD false = true ↔ g.Live j)
  (hb : g.body order m live = .ok is)
include hs hlive hb

/-- A live node with a recipe has an instruction that does what the recipe says. -/
theorem written_of_recipe {out : UInt8} {r : Recipe} (hi : i ∈ order) (hl : g.Live i)
    (hout : m.get i = some out) (hr : g.recipe i = some r) :
    ∃ ins ∈ is, r.Realizes m out ins := by
  obtain ⟨res, hres, hmem⟩ := instruction_of_mem_order hb hi ((hlive i).2 hl)
  have hrel := instruction_of_producer hs hout hl hres
  rw [hr] at hrel
  cases hrel with
  | some hreal => exact ⟨_, hmem _ rfl, hreal⟩

/-- The slot of a node is written by that node or not at all. -/
theorem mem_written_iff {s : UInt8} (hout : m.get i = some s) :
    s ∈ writtenSlots is ↔ i ∈ order ∧ g.Live i ∧ (g.recipe i).isSome := by
  rw [mem_writtenSlots]
  constructor
  · rintro ⟨ins, hins, hw⟩
    obtain ⟨j, hj, hl, hres⟩ := mem_body hb hins
    have hl := (hlive j).1 hl
    rcases instruction_cases hs hl hres with ⟨out, r, hget, hr, hreal⟩ | ⟨pin, -, -, rfl⟩
    · rw [hreal.access] at hw
      cases hw
      cases hs.inj j i s hget hout
      exact ⟨hj, hl, by simp [hr]⟩
    · cases hw
  · rintro ⟨hi, hl, hr⟩
    obtain ⟨r, hr⟩ := Option.isSome_iff_exists.1 hr
    obtain ⟨ins, hins, hreal⟩ := written_of_recipe hs hlive hb hi hl hout hr
    exact ⟨ins, hins, by rw [hreal.access]⟩

/-- An order without repeats writes no slot twice. -/
theorem writtenSlots_nodup (hnd : order.Nodup) : (writtenSlots is).Nodup := by
  induction order generalizing is with
  | nil =>
    cases hb
    exact List.nodup_nil
  | cons i rest ih =>
    obtain ⟨first, later, rfl, ha, hlater⟩ := body_cons hb
    obtain ⟨hi, hnd⟩ := List.nodup_cons.1 hnd
    rcases ha.cases with rfl | ⟨ins, rfl, hl, hres⟩
    · exact ih hlater hnd
    · have hout := out_of_instruction hs ((hlive i).1 hl) hres
      rw [writtenSlots_append]
      refine List.nodup_append.2 ⟨?_, ih hlater hnd, ?_⟩
      · unfold writtenSlots
        cases hw : ins.access.out <;> simp [hw]
      · rintro s hfirst _ hlast rfl
        -- the slot is that of the first node, which does not come again
        obtain ⟨x, hx, hw⟩ := mem_writtenSlots.1 hfirst
        cases List.mem_singleton.1 hx
        rw [hout] at hw
        exact hi ((mem_written_iff hs hlive hlater hw).1 hlast).1

end

/-- The slot of a node that comes before another is written before that one, or not at all. -/
theorem written_before (hs : m.Serves g) (hlive : ∀ j, live[j]?.getD false = true ↔ g.Live j)
    {before after : List Instruction} {earlier : List Nat} {s : UInt8}
    (hb : g.body order m live = .ok (before ++ after)) (hnd : order.Nodup)
    (hbefore : g.body earlier m live = .ok before) (hi : i ∈ earlier) (hout : m.get i = some s)
    (hw : s ∈ writtenSlots (before ++ after)) :
    (writtenSlots before).count s = 1 ∧ s ∉ writtenSlots after := by
  obtain ⟨-, hl, hr⟩ := (mem_written_iff hs hlive hb hout).1 hw
  have hmem := (mem_written_iff hs hlive hbefore hout).2 ⟨hi, hl, hr⟩
  have hnodup := writtenSlots_nodup hs hlive hb hnd
  rw [writtenSlots_append] at hnodup
  obtain ⟨hnd, -, hdisjoint⟩ := List.nodup_append.1 hnodup
  exact ⟨List.count_eq_one_of_mem hnd hmem, fun ha => hdisjoint s hmem s ha rfl⟩

/-! ## Reads -/

/-- What an instruction reads is the slot of a node that drives its own; an output without a
producer reads slot 0. -/
theorem reads_driver {s : UInt8} (hs : m.Serves g) (hl : g.Live i)
    (h : g.instruction m i = .ok (some ins)) (hr : s ∈ ins.access.inputs) :
    (ins.opcode = .writePin ∧ g.producers i = [] ∧ s = 0) ∨
      ∃ u, g.Drives u i ∧ m.get u = some s := by
  rcases instruction_cases hs hl h with ⟨out, r, -, hrecipe, hreal⟩ | ⟨pin, -, -, rfl⟩
  · rw [hreal.access] at hr
    obtain ⟨u, hu, rfl⟩ := List.mem_map.1 hr
    have hd := drives_of_mem_sources hrecipe hu
    exact .inr ⟨u, hd, get_of_drives hs hd⟩
  · have hs0 : s = ((g.producers i).map m.slot).headD 0 := List.mem_singleton.1 hr
    subst hs0
    cases hp : g.producers i with
    | nil => exact .inl ⟨rfl, rfl, rfl⟩
    | cons u rest =>
      have hd : g.Drives u i := drives_of_mem_producers (by simp [hp])
      exact .inr ⟨u, hd, get_of_drives hs hd⟩

/-- What drives a live node is live, unless it is an input without a pin. -/
theorem live_of_drives {u : Nat} (hl : g.Live i) (hd : g.Drives u i) :
    g.Live u ∨ g.kindAt u = some (.input none) := by
  obtain ⟨hf, hp⟩ := hd
  obtain ⟨n, hn⟩ : ∃ n, g.nodes[u]? = some n := ⟨_, List.getElem?_eq_getElem (source_lt_of_feeds hf)⟩
  have hk := kindAt_of_getElem? hn
  by_cases hin : n.kind = .input none
  · exact .inr (hin ▸ hk)
  · rw [isProducerAt, isSinkAt_of_getElem? hn, Bool.not_eq_true'] at hp
    exact .inl (.read ⟨n.kind, hk, hp, hin⟩ hf hl)

/-- The wires that a node of this kind cannot do without are not all there. -/
def Underspecified (g : Graph) (i : Nat) : NodeKind → Prop
  | .input _ | .output _ | .pulse _ _ => False
  | .gate _ _ => (g.producers i).length < 2
  | .not | .toggle _ | .range _ _ => g.producers i = []
  | .latch _ => g.driver i "set" = none ∨ g.driver i "reset" = none
  | .compare _ => g.driver i "a" = none ∨ g.driver i "b" = none
  | .shift _ _ => g.driver i "data" = none ∨ g.driver i "clock" = none

theorem both_eq_none {first second : String} (h : g.both i first second = none) :
    g.driver i first = none ∨ g.driver i second = none := by
  unfold both at h
  cases ha : g.driver i first with
  | none => exact .inl rfl
  | some a =>
    cases hb : g.driver i second with
    | none => exact .inr rfl
    | some b => simp [ha, hb] at h

theorem underspecified_of_operands {kind : NodeKind} (h : g.operands i kind = none)
    (hsink : kind.isSink = false) (hpin : kind ≠ .input none) : g.Underspecified i kind := by
  unfold operands at h
  cases kind with
  | input pin =>
    cases pin with
    | none => exact absurd rfl hpin
    | some pin => simp at h
  | output pin => simp [NodeKind.isSink] at hsink
  | gate op fanIn =>
    by_contra hlen
    have hlen : ¬ (g.producers i).length < 2 := hlen
    simp [hlen] at h
  | pulse length interval => simp at h
  | not | toggle initial | range min max =>
    rwa [Option.map_eq_none_iff, List.head?_eq_none_iff] at h
  | latch initial | compare comparator => exact both_eq_none h
  | shift width initial => exact both_eq_none (Option.map_eq_none_iff.1 h)

/-- A live node with a slot but no recipe has wires missing. -/
theorem underspecified_of_live (hs : m.Serves g) (hl : g.Live i) {s : UInt8}
    (hout : m.get i = some s) (hr : g.recipe i = none) :
    ∃ kind, g.kindAt i = some kind ∧ g.Underspecified i kind := by
  obtain ⟨n, hn⟩ := hl.exists_node
  have hk := kindAt_of_getElem? hn
  have hsink := ((hs.isSome_iff i).1 (by simp [hout])).2
  rw [isSinkAt_of_getElem? hn] at hsink
  rw [recipe_eq hn, Option.map_eq_none_iff] at hr
  exact ⟨n.kind, hk, underspecified_of_operands hr hsink fun hin => hl.ne_pinless (hin ▸ hk)⟩

/-- A live node whose slot is not written has wires missing. -/
theorem underspecified_of_not_written (hs : m.Serves g)
    (hlive : ∀ j, live[j]?.getD false = true ↔ g.Live j) (hb : g.body order m live = .ok is)
    (hi : i ∈ order) (hl : g.Live i) {s : UInt8} (hout : m.get i = some s)
    (hw : s ∉ writtenSlots is) : ∃ kind, g.kindAt i = some kind ∧ g.Underspecified i kind := by
  have hr : ¬ (g.recipe i).isSome := fun hr =>
    hw ((mem_written_iff hs hlive hb hout).2 ⟨hi, hl, hr⟩)
  exact underspecified_of_live hs hl hout (Option.not_isSome_iff_eq_none.1 hr)

end Graph

/-! ## One write, and before the reads -/

/-- No slot is written twice. An instruction of the body is that of the node at its place in the
order, and what stands before it comes from the nodes before that one. What it reads from a node
is written once, before it, or not at all; and in that case the node is an input without a pin, or
has wires missing. An output that no node drives reads slot 0. -/
theorem compile_single_assignment {g : Graph} {p : Program} (h : compile g = .ok p) :
    ∃ (order : List Nat) (m : SlotMap) (body : List Instruction),
      let n := g.normalize.graph
      n.evaluationOrder = .ok order ∧ n.allocate order = .ok m ∧
      n.body order m (n.liveness order) = .ok body ∧
      decode (p.bytes.drop p.bodyOffset) = .ok (placeFrom 0 body) ∧
      (writtenSlots body).Nodup ∧
      ∀ before ins after, body = before ++ ins :: after →
        ∃ earlier i later, order = earlier ++ i :: later ∧
          n.body earlier m (n.liveness order) = .ok before ∧
          (n.liveness order)[i]?.getD false = true ∧ n.instruction m i = .ok (some ins) ∧
          ∀ s ∈ ins.access.inputs,
            (ins.opcode = .writePin ∧ n.producers i = [] ∧ s = 0) ∨
            ∃ u ∈ earlier, n.Drives u i ∧ m.get u = some s ∧
              ((writtenSlots before).count s = 1 ∧ s ∉ writtenSlots (ins :: after) ∨
                s ∉ writtenSlots body ∧ (n.kindAt u = some (.input none) ∨
                  ∃ kind, n.kindAt u = some kind ∧ n.Underspecified u kind)) ∧
              ((n.liveness order)[u]?.getD false = true ∨ n.kindAt u = some (.input none)) := by
  obtain ⟨order, m, modes, body, hc⟩ := compiled_of_compile h
  have hs := hc.serves
  have hnd := hc.isOrder.nodup
  refine ⟨order, m, body, hc.order_eq, hc.slots_eq, hc.body_eq, hc.decode_body,
    Graph.writtenSlots_nodup hs hc.live_iff hc.body_eq hnd, ?_⟩
  rintro before ins after rfl
  obtain ⟨earlier, i, later, hsplit, hlive, hres, hbefore⟩ := Graph.body_split hc.body_eq
  have hl := (hc.live_iff i).1 hlive
  refine ⟨earlier, i, later, hsplit, hbefore, hlive, hres, fun s hread => ?_⟩
  rcases Graph.reads_driver hs hl hres hread with hzero | ⟨u, hd, hu⟩
  · exact .inl hzero
  · have hearlier := hc.isOrder.mem_before hsplit hd.1
    have hlu := Graph.live_of_drives hl hd
    refine .inr ⟨u, hearlier, hd, hu, ?_, hlu.imp_left (hc.live_iff u).2⟩
    by_cases hw : s ∈ writtenSlots (before ++ ins :: after)
    · exact .inl (Graph.written_before hs hc.live_iff hc.body_eq hnd hbefore hearlier hu hw)
    · refine .inr ⟨hw, hlu.symm.imp_right fun hl => ?_⟩
      have horder : u ∈ order := by simp [hsplit, hearlier]
      exact Graph.underspecified_of_not_written hs hc.live_iff hc.body_eq horder hl hu hw

/-- An inverter behind an input without a pin, and a gate with a single wire. -/
def looseEnds : Graph where
  nodes := [
    { id := "p", kind := .input none }, { id := "n", kind := .not },
    { id := "o", kind := .output (some 8) }, { id := "a", kind := .input (some 2) },
    { id := "g", kind := .gate .and 2 }, { id := "q", kind := .output (some 9) }]
  edges := [
    { source := "p", target := "n" }, { source := "n", target := "o" },
    { source := "a", target := "g", targetHandle := "in0" }, { source := "g", target := "q" }]
  ids_nodup := by decide
  ends_known := by decide

/-- Slots 0 and 3 are read, and not written. -/
def looseEndsProgram : Program where
  bytes := [2, 8, 1, 2, 2, 9, 3, 2, 1, 10, 0, 2, 4, 8, 2, 4, 9, 3]
  slotCount := 4
  bodyOffset := 6

theorem compile_looseEnds : compile looseEnds = .ok looseEndsProgram := by
  have hsame : looseEnds.normalize.graph = looseEnds :=
    Graph.ext_nodes_edges (by cbv) (by cbv)
  have hlive : looseEnds.liveness [0, 3, 1, 4, 2, 5] = [false, true, true, true, true, true] := by
    decide
  have ho : looseEnds.evaluationOrder = .ok [0, 3, 1, 4, 2, 5] := by cbv
  have hm : looseEnds.allocate [0, 3, 1, 4, 2, 5] =
      .ok { slots := [some 0, some 2, none, some 1, some 3, none], count := 4 } := by cbv
  rw [compile_of_stages hsame ho hm, Graph.program, hlive]
  cbv

theorem looseEnds_single_assignment :
    compile looseEnds = .ok looseEndsProgram ∧
    ∃ (order : List Nat) (m : SlotMap) (body : List Instruction),
      let n := looseEnds.normalize.graph
      n.evaluationOrder = .ok order ∧ n.allocate order = .ok m ∧
      n.body order m (n.liveness order) = .ok body ∧
      decode (looseEndsProgram.bytes.drop looseEndsProgram.bodyOffset) = .ok (placeFrom 0 body) ∧
      (writtenSlots body).Nodup ∧
      ∀ before ins after, body = before ++ ins :: after →
        ∃ earlier i later, order = earlier ++ i :: later ∧
          n.body earlier m (n.liveness order) = .ok before ∧
          (n.liveness order)[i]?.getD false = true ∧ n.instruction m i = .ok (some ins) ∧
          ∀ s ∈ ins.access.inputs,
            (ins.opcode = .writePin ∧ n.producers i = [] ∧ s = 0) ∨
            ∃ u ∈ earlier, n.Drives u i ∧ m.get u = some s ∧
              ((writtenSlots before).count s = 1 ∧ s ∉ writtenSlots (ins :: after) ∨
                s ∉ writtenSlots body ∧ (n.kindAt u = some (.input none) ∨
                  ∃ kind, n.kindAt u = some kind ∧ n.Underspecified u kind)) ∧
              ((n.liveness order)[u]?.getD false = true ∨ n.kindAt u = some (.input none)) :=
  ⟨compile_looseEnds, compile_single_assignment compile_looseEnds⟩

/-! ## Slots within the reserved ones -/

/-- The reset operand of a shift register. -/
def Instruction.reset? (i : Instruction) : Option UInt8 :=
  match i.opcode with
  | .shiftRegister => i.operands[2]?
  | _ => none

theorem opcodeAt_eq_shiftRegister {g : Graph} {i : Nat} {kind : NodeKind}
    (h : g.opcodeAt i kind = .shiftRegister) : ∃ width initial, kind = .shift width initial := by
  cases kind with
  | shift width initial => exact ⟨width, initial, rfl⟩
  | input pin => cases ha : g.feedsAnalog i <;> simp [Graph.opcodeAt, ha] at h
  | gate op fanIn => cases op <;> cases h
  | compare comparator => cases comparator <;> cases h
  | _ => cases h

/-- The reset operand is the slot behind the reset handle, or the value for no wire. -/
theorem reset_of_instruction {g : Graph} {m : SlotMap} {i : Nat} {ins : Instruction} {s : UInt8}
    (h : g.instruction m i = .ok (some ins)) (hr : ins.reset? = some s) :
    s = (g.handleSlot m i "reset").getD unconnected := by
  obtain ⟨kind, out, -, hlaid⟩ := Graph.layOut_of_emission (Graph.instruction_eq_ok h).1.symm
  obtain ⟨slots, hslots, rfl⟩ := Option.map_eq_some_iff.1 hlaid
  unfold Instruction.reset? at hr
  split at hr
  · rename_i hop
    obtain ⟨width, initial, rfl⟩ := opcodeAt_eq_shiftRegister hop
    obtain ⟨first, hfirst, rfl⟩ := Option.map_eq_some_iff.1 hslots
    obtain ⟨a, b, rfl⟩ := Graph.handleSlots_eq_some hfirst
    exact (Option.some.inj hr).symm
  · cases hr

/-- A pin mode touches no slot. -/
theorem slots_of_isPinMode {ins : Instruction} (h : ins.opcode.isPinMode = true) :
    ins.access.inputs = [] ∧ ins.access.out = none ∧ ins.reset? = none := by
  obtain ⟨op, operands⟩ := ins
  cases op with
  | setPinModeInput | setPinModeOutput =>
    rcases operands with _ | ⟨pin, _ | ⟨b, rest⟩⟩ <;> exact ⟨rfl, rfl, rfl⟩
  | _ => cases h

/-- All slots of a program are below the number that it asks for. There are two exceptions: the
reset of a shift register that nothing drives, and slot 0 where an output that nothing drives is
written by a program that asks for no slot at all. -/
theorem compile_within_slots {g : Graph} {p : Program} (h : compile g = .ok p) :
    ∃ (order : List Nat) (m : SlotMap) (all : List Instruction),
      let n := g.normalize.graph
      n.evaluationOrder = .ok order ∧ n.allocate order = .ok m ∧
      decode p.bytes = .ok (placeFrom 0 all) ∧
      ∀ ins ∈ all,
        (∀ s, ins.access.out = some s → s.toNat < p.slotCount) ∧
        (∀ s ∈ ins.access.inputs, s.toNat < p.slotCount ∨
          p.slotCount = 0 ∧ s = 0 ∧ ins.opcode = .writePin ∧
            ∃ i ∈ order, n.instruction m i = .ok (some ins) ∧ n.producers i = []) ∧
        (∀ s, ins.reset? = some s → s.toNat < p.slotCount ∨
          s = unconnected ∧
            ∃ i ∈ order, n.instruction m i = .ok (some ins) ∧ n.driver i "reset" = none) := by
  obtain ⟨order, m, modes, body, hc⟩ := compiled_of_compile h
  have hs := hc.serves
  have hlt : ∀ i s, m.get i = some s → s.toNat < p.slotCount := by
    rw [hc.program_eq]
    exact hs.lt_count
  refine ⟨order, m, modes ++ body, hc.order_eq, hc.slots_eq, hc.decode_bytes, fun ins hins => ?_⟩
  rcases List.mem_append.1 hins with hmode | hbody
  · obtain ⟨hin, hout, hreset⟩ := slots_of_isPinMode (Graph.of_mem_preamble hc.modes_eq hmode).2
    simp [hin, hout, hreset]
  · obtain ⟨i, hi, hlive, hres⟩ := Graph.mem_body hc.body_eq hbody
    have hl := (hc.live_iff i).1 hlive
    refine ⟨fun s hw => ?_, fun s hread => ?_, fun s hr => ?_⟩
    · exact hlt i s (Graph.out_of_instruction hs hl hres ▸ hw)
    · rcases Graph.reads_driver hs hl hres hread with ⟨hop, hnone, rfl⟩ | ⟨u, -, hu⟩
      · by_cases hcount : p.slotCount = 0
        · exact .inr ⟨hcount, rfl, hop, i, hi, hres, hnone⟩
        · exact .inl (Nat.pos_of_ne_zero hcount)
      · exact .inl (hlt u s hu)
    · have hslot := reset_of_instruction hres hr
      rw [Graph.handleSlot_eq hs] at hslot
      cases hd : g.normalize.graph.driver i "reset" with
      | none => exact .inr ⟨by simpa [hd] using hslot, i, hi, hres, hd⟩
      | some u =>
        have hu := Graph.get_of_drives hs (Graph.drives_of_driver hd)
        rw [hd] at hslot
        exact .inl (hlt u s (hslot ▸ hu))

/-- A shift register without a reset wire, and an output that nothing drives. -/
def register : Graph where
  nodes := [
    { id := "d", kind := .input (some 2) }, { id := "c", kind := .input (some 3) },
    { id := "sr", kind := .shift 8 0 }, { id := "o", kind := .output (some 8) },
    { id := "x", kind := .output (some 9) }]
  edges := [
    { source := "d", target := "sr", targetHandle := "data" },
    { source := "c", target := "sr", targetHandle := "clock" },
    { source := "sr", target := "o" }]
  ids_nodup := by decide
  ends_known := by decide

def registerProgram : Program where
  bytes := [1, 2, 1, 3, 2, 8, 2, 9, 3, 2, 0, 3, 3, 1, 4, 9, 0, 26, 0, 1, 255, 8, 0, 2, 4, 8, 2]
  slotCount := 3
  bodyOffset := 8

theorem compile_register : compile register = .ok registerProgram := by
  have hsame : register.normalize.graph = register :=
    Graph.ext_nodes_edges (by cbv) (by cbv)
  have hlive : register.liveness [0, 1, 4, 2, 3] = List.replicate 5 true := by decide
  have ho : register.evaluationOrder = .ok [0, 1, 4, 2, 3] := by cbv
  have hm : register.allocate [0, 1, 4, 2, 3] =
      .ok { slots := [some 0, some 1, some 2, none, none], count := 3 } := by cbv
  rw [compile_of_stages hsame ho hm, Graph.program, hlive]
  cbv

theorem register_within_slots :
    compile register = .ok registerProgram ∧
    ∃ (order : List Nat) (m : SlotMap) (all : List Instruction),
      let n := register.normalize.graph
      n.evaluationOrder = .ok order ∧ n.allocate order = .ok m ∧
      decode registerProgram.bytes = .ok (placeFrom 0 all) ∧
      ∀ ins ∈ all,
        (∀ s, ins.access.out = some s → s.toNat < registerProgram.slotCount) ∧
        (∀ s ∈ ins.access.inputs, s.toNat < registerProgram.slotCount ∨
          registerProgram.slotCount = 0 ∧ s = 0 ∧ ins.opcode = .writePin ∧
            ∃ i ∈ order, n.instruction m i = .ok (some ins) ∧ n.producers i = []) ∧
        (∀ s, ins.reset? = some s → s.toNat < registerProgram.slotCount ∨
          s = unconnected ∧
            ∃ i ∈ order, n.instruction m i = .ok (some ins) ∧ n.driver i "reset" = none) :=
  ⟨compile_register, compile_within_slots compile_register⟩

/-- A single output that nothing drives. -/
def undriven : Graph where
  nodes := [{ id := "o", kind := .output (some 13) }]
  edges := []
  ids_nodup := by decide
  ends_known := by decide

def undrivenProgram : Program where
  bytes := [2, 13, 4, 13, 0]
  slotCount := 0
  bodyOffset := 2

theorem compile_undriven : compile undriven = .ok undrivenProgram := by
  have hsame : undriven.normalize.graph = undriven :=
    Graph.ext_nodes_edges (by cbv) (by cbv)
  have hlive : undriven.liveness [0] = [true] := by decide
  have ho : undriven.evaluationOrder = .ok [0] := by cbv
  have hm : undriven.allocate [0] =
      .ok { slots := [none], count := 0 } := by cbv
  rw [compile_of_stages hsame ho hm, Graph.program, hlive]
  cbv

/-- The program asks for no slot, and reads slot 0. -/
theorem undriven_reads_unreserved :
    compile undriven = .ok undrivenProgram ∧
    decode undrivenProgram.bytes = .ok (placeFrom 0
      [⟨.setPinModeOutput, [13]⟩, ⟨.writePin, [13, 0]⟩]) ∧
    0 ∈ (Instruction.access ⟨.writePin, [13, 0]⟩).inputs ∧
    ¬ (0 : UInt8).toNat < undrivenProgram.slotCount :=
  ⟨compile_undriven, by cbv, by decide, by decide⟩

end LogicWiring
