-- The instruction of a node is its recipe with slots in place of nodes. Main
-- statements: `instruction_of_producer`, `instruction_of_output`, and how the
-- body of an order is put together.
import LogicWiring.Proofs.Operands
import Mathlib.Data.Option.Basic

namespace LogicWiring

/-- The slot of a node that has one. -/
def SlotMap.slot (m : SlotMap) (i : Nat) : UInt8 := (m.get i).getD 0

namespace Graph

variable {g : Graph} {m : SlotMap} {i : Nat}

/-! ## Slots of drivers -/

/-- A source of an edge has a slot exactly if it is a producer. -/
theorem get_source {l : Link} (hs : m.Serves g) (hl : l ∈ g.links) :
    m.get l.source = if g.isProducerAt l.source then some (m.slot l.source) else none := by
  by_cases h : g.isSinkAt l.source
  · simp [isProducerAt, h, hs.get_eq_none h]
  · obtain ⟨s, hget⟩ := hs.exists_slot (link_ends_lt hl).1 (by simpa using h)
    simp [isProducerAt, h, SlotMap.slot, hget]

theorem mem_links_of_linksInto {l : Link} (h : l ∈ g.linksInto i) : l ∈ g.links :=
  (List.mem_filter.1 h).1

theorem driverSlots_eq (hs : m.Serves g) (i : Nat) :
    g.driverSlots m i = (g.producers i).map m.slot := by
  unfold driverSlots producers
  have h : ∀ l ∈ g.linksInto i, l ∈ g.links := fun l => mem_links_of_linksInto
  generalize g.linksInto i = links at h
  induction links with
  | nil => rfl
  | cons l links ih =>
    have ih := ih fun l' hl' => h l' (by simp [hl'])
    rw [List.filterMap_cons, get_source hs (h l (by simp)), List.map_cons, List.filter_cons]
    split <;> simp_all

theorem handleSlot_eq (hs : m.Serves g) (i : Nat) (handle : String) :
    g.handleSlot m i handle = (g.driver i handle).map m.slot := by
  unfold handleSlot driver
  cases hf : (g.linksInto i).find? (·.handle = handle) with
  | none => rfl
  | some l =>
    have hl := mem_links_of_linksInto (List.mem_of_find?_eq_some hf)
    rw [Option.bind_some, get_source hs hl, Option.map_some, Option.filter_some]
    split <;> rfl

/-- A node that drives another one has a slot. -/
theorem get_of_drives {j : Nat} (hs : m.Serves g) (h : g.Drives j i) :
    m.get j = some (m.slot j) := by
  obtain ⟨⟨l, hl, rfl, -⟩, hp⟩ := h
  rw [get_source hs hl, if_pos hp]

end Graph

/-! ## One node -/

/-- The instruction does what the recipe says, and leaves the value in `out`. -/
structure Recipe.Realizes (r : Recipe) (m : SlotMap) (out : UInt8) (ins : Instruction) : Prop where
  opcode : ins.opcode = r.opcode
  access : ins.access = {
    settings := r.settings, pin := r.pin, inputs := r.sources.map m.slot, out := some out }

/-- Gates hold the number of their inputs, their inputs and the slot of their value. -/
theorem access_gate {op : GateOp} {count out : UInt8} {inputs : List UInt8}
    (h : Instruction.Fits ⟨op.opcode, count :: inputs ++ [out]⟩) :
    Instruction.access ⟨op.opcode, count :: inputs ++ [out]⟩ =
      { settings := [count], inputs, out := some out } := by
  have hcount : count.toNat = inputs.length := Graph.fits_gate_iff.1 h
  cases op <;> simp [Instruction.access, GateOp.opcode, hcount]

namespace Graph

variable {g : Graph} {m : SlotMap} {i : Nat}

/-- The recipe of a node, by what it reads. -/
theorem recipe_eq {n : Node} (hn : g.nodes[i]? = some n) :
    g.recipe i = (g.operands i n.kind).map fun sources => {
      opcode := g.opcodeAt i n.kind
      settings := n.kind.settings sources.length
      pin := n.kind.pin.map UInt32.toUInt8
      sources } := by
  simp [recipe, kindAt_of_getElem? hn]

/-- Where nodes and slots are read in the same way, instructions realize recipes if each does. -/
theorem realizes_map {out : UInt8} {reads : Option (List Nat)} {slots : Option (List UInt8)}
    {cook : List Nat → Recipe} {make : List UInt8 → Instruction}
    (hslots : slots = reads.map (List.map m.slot))
    (h : ∀ js, reads = some js → (cook js).Realizes m out (make (js.map m.slot))) :
    Option.Rel (fun r ins => r.Realizes m out ins) (reads.map cook) (slots.map make) := by
  subst hslots
  cases reads with
  | none => exact .none
  | some js => exact .some (h js rfl)

theorem firstSlot_eq (hs : m.Serves g) (i : Nat) : (g.driverSlots m i).head?.map (fun s => [s]) =
    ((g.producers i).head?.map fun j => [j]).map (List.map m.slot) := by
  rw [driverSlots_eq hs, List.head?_map, Option.map_map, Option.map_map]
  rfl

theorem handleSlots_eq (hs : m.Serves g) (i : Nat) (first second : String) :
    g.handleSlots m i first second = (g.both i first second).map (List.map m.slot) := by
  unfold handleSlots both
  rw [handleSlot_eq hs, handleSlot_eq hs]
  cases g.driver i first <;> cases g.driver i second <;> rfl

theorem both_eq_some {first second : String} {js : List Nat}
    (h : g.both i first second = some js) : ∃ a b, js = [a, b] := by
  unfold both at h
  split at h
  · cases h
    exact ⟨_, _, rfl⟩
  · simp at h

/-- What is laid out for a producer does what its recipe says. -/
theorem realizes_layOut {n : Node} {out : UInt8} (hs : m.Serves g)
    (hn : g.nodes[i]? = some n) (hsink : n.kind.isSink = false) (hpin : n.kind ≠ .input none)
    (hfits : ∀ ins ∈ g.layOut m i out n.kind, ins.Fits) :
    Option.Rel (fun r ins => r.Realizes m out ins) (g.recipe i) (g.layOut m i out n.kind) := by
  rw [recipe_eq hn]
  unfold layOut at hfits ⊢
  cases hk : n.kind with
  | input pin =>
    cases pin with
    | none => exact absurd hk hpin
    | some pin =>
      refine .some ⟨rfl, ?_⟩
      by_cases ha : g.feedsAnalog i = true <;>
        simp [Instruction.access, opcodeAt, NodeKind.operandBytes, ha, NodeKind.settings,
          NodeKind.pin]
  | output pin => simp [hk, NodeKind.isSink] at hsink
  | gate op fanIn =>
    have hslots : g.readSlots m i (.gate op fanIn) =
        (g.operands i (.gate op fanIn)).map (List.map m.slot) := by
      simp only [readSlots, operands, driverSlots_eq hs, List.length_map]
      split <;> rfl
    refine realizes_map hslots fun js hjs => ⟨rfl, ?_⟩
    refine (access_gate (hfits _ (by rw [hk, hslots, hjs]; rfl))).trans ?_
    rw [List.length_map]
    rfl
  | not | toggle initial | range min max =>
    refine realizes_map (firstSlot_eq hs i) fun js hjs => ⟨rfl, ?_⟩
    obtain ⟨j, -, rfl⟩ := Option.map_eq_some_iff.1 hjs
    rfl
  | latch initial =>
    refine realizes_map (handleSlots_eq hs i "set" "reset") fun js hjs => ⟨rfl, ?_⟩
    obtain ⟨a, b, rfl⟩ := both_eq_some hjs
    rfl
  | pulse length interval => exact .some ⟨rfl, rfl⟩
  | compare comparator =>
    refine realizes_map (handleSlots_eq hs i "a" "b") fun js hjs => ⟨rfl, ?_⟩
    obtain ⟨a, b, rfl⟩ := both_eq_some hjs
    cases comparator <;> rfl
  | shift width initial =>
    unfold readSlots operands
    rw [Option.map_map, Option.map_map]
    refine realizes_map (handleSlots_eq hs i "data" "clock") fun js hjs => ⟨rfl, ?_⟩
    obtain ⟨a, b, rfl⟩ := both_eq_some hjs
    rw [handleSlot_eq hs]
    -- a wired reset has a slot, which is never the value for no wire
    cases hr : g.driver i "reset" with
    | none => rfl
    | some reset =>
      have hne := hs.ne_unconnected (get_of_drives hs (drives_of_driver hr))
      simp [Instruction.access, NodeKind.operandBytes, NodeKind.settings, NodeKind.pin, opcodeAt, hne]

theorem instruction_of_producer {out : UInt8} {res : Option Instruction} (hs : m.Serves g)
    (hout : m.get i = some out) (hl : g.Live i) (h : g.instruction m i = .ok res) :
    Option.Rel (fun r ins => r.Realizes m out ins) (g.recipe i) res := by
  obtain ⟨hlt, hsink⟩ := (hs.isSome_iff i).1 (by simp [hout])
  have hn : g.nodes[i]? = some g.nodes[i] := List.getElem?_eq_getElem hlt
  rw [isSinkAt_of_getElem? hn] at hsink
  have hpin : g.nodes[i].kind ≠ .input none := fun hk =>
    hl.ne_pinless (by rw [kindAt_of_getElem? hn, hk])
  rw [instruction_of_slot hn hsink hout] at h
  obtain ⟨rfl, hfits⟩ := produce_eq_ok hsink h
  exact realizes_layOut hs hn hsink hpin hfits

/-- An output writes what its first producer gives. -/
theorem instruction_of_output {pin : UInt32} {res : Option Instruction} (hs : m.Serves g)
    (hk : g.kindAt i = some (.output (some pin))) (h : g.instruction m i = .ok res) :
    pin.toNat ≤ 255 ∧ res = some ⟨.writePin,
      [pin.toUInt8, ((g.producers i).map m.slot).headD 0]⟩ := by
  obtain ⟨n, hn, hkind⟩ := Option.map_eq_some_iff.1 hk
  unfold instruction at h
  rw [hn] at h
  simp only [hkind] at h
  obtain ⟨b, hb, hres⟩ := bind_eq_ok.1 h
  obtain ⟨hle, rfl⟩ := pinOperand_eq_ok.1 hb
  rw [hkind] at hle hres
  cases hres
  rw [driverSlots_eq hs]
  exact ⟨hle, rfl⟩

/-! ## The body -/

/-- The instructions that one node adds to a body. -/
def Adds (g : Graph) (m : SlotMap) (live : List Bool) (i : Nat) (is : List Instruction) : Prop :=
  if live[i]?.getD false then ∃ res, g.instruction m i = .ok res ∧ is = res.toList else is = []

/-- The body of an order is what its first node adds, then the body of the rest. -/
theorem body_cons {rest : List Nat} {live : List Bool} {is : List Instruction}
    (h : g.body (i :: rest) m live = .ok is) :
    ∃ first later, is = first ++ later ∧ g.Adds m live i first ∧
      g.body rest m live = .ok later := by
  unfold body at h
  unfold Adds
  by_cases hl : live[i]?.getD false = true
  · rw [List.filter_cons, if_pos hl, List.mapM_cons] at h
    obtain ⟨all, hall, hret⟩ := bind_eq_ok.1 h
    obtain ⟨res, hres, hall⟩ := bind_eq_ok.1 hall
    obtain ⟨later, hlater, hcons⟩ := bind_eq_ok.1 hall
    cases hcons
    cases hret
    refine ⟨res.toList, later.filterMap id, ?_, by simpa [hl] using ⟨res, hres, rfl⟩, ?_⟩
    · cases res <;> rfl
    · rw [body, hlater]
      rfl
  · rw [List.filter_cons, if_neg hl] at h
    exact ⟨[], is, rfl, by simp [hl], h⟩

theorem body_of_adds {rest : List Nat} {live : List Bool} {first later : List Instruction}
    (ha : g.Adds m live i first) (h : g.body rest m live = .ok later) :
    g.body (i :: rest) m live = .ok (first ++ later) := by
  unfold Adds at ha
  obtain ⟨all, hall, hret⟩ := bind_eq_ok.1 h
  cases hret
  unfold body
  by_cases hl : live[i]?.getD false = true
  · rw [if_pos hl] at ha
    obtain ⟨res, hres, rfl⟩ := ha
    rw [List.filter_cons_of_pos (by simpa using hl), List.mapM_cons, hres, hall]
    cases res <;> rfl
  · rw [if_neg hl] at ha
    subst ha
    rw [List.filter_cons_of_neg (by simpa using hl), hall]
    rfl

/-- A node adds one instruction at the most. -/
theorem Adds.cases {live : List Bool} {is : List Instruction} (h : g.Adds m live i is) :
    is = [] ∨ ∃ ins, is = [ins] ∧ live[i]?.getD false = true ∧
      g.instruction m i = .ok (some ins) := by
  unfold Adds at h
  split at h
  · rename_i hl
    obtain ⟨res, hres, rfl⟩ := h
    cases res with
    | none => exact .inl rfl
    | some ins => exact .inr ⟨ins, rfl, hl, hres⟩
  · exact .inl h

theorem mem_body {order : List Nat} {live : List Bool} {is : List Instruction} {ins : Instruction}
    (h : g.body order m live = .ok is) (hi : ins ∈ is) :
    ∃ i ∈ order, live[i]?.getD false = true ∧ g.instruction m i = .ok (some ins) := by
  induction order generalizing is with
  | nil =>
    cases h
    simp at hi
  | cons i rest ih =>
    obtain ⟨first, later, rfl, ha, hlater⟩ := body_cons h
    rcases List.mem_append.1 hi with hi | hi
    · unfold Adds at ha
      split at ha
      · obtain ⟨res, hres, rfl⟩ := ha
        cases Option.mem_toList.1 hi
        exact ⟨i, by simp, ‹_›, hres⟩
      · simp [ha] at hi
    · obtain ⟨j, hj, hlj, hres⟩ := ih hlater hi
      exact ⟨j, by simp [hj], hlj, hres⟩

theorem decode_body {order : List Nat} {live : List Bool} {is : List Instruction}
    (h : g.body order m live = .ok is) : decode (encode is) = .ok (placeFrom 0 is) :=
  decodeFrom_encode (fun _ hi =>
    let ⟨_, _, _, hres⟩ := mem_body h hi
    fits_of_instruction hres) 0

/-! ## The program -/

theorem program_eq_ok {order : List Nat} {p : Program} (h : g.program order m = .ok p) :
    ∃ preamble body, g.preamble (g.liveness order) = .ok preamble ∧
      g.body order m (g.liveness order) = .ok body ∧
      p = { bytes := encode preamble ++ encode body, slotCount := m.count
            bodyOffset := (encode preamble).length } := by
  obtain ⟨preamble, hp, h⟩ := bind_eq_ok.1 h
  obtain ⟨body, hb, h⟩ := bind_eq_ok.1 h
  cases h
  exact ⟨preamble, body, hp, hb, rfl⟩

end Graph

end LogicWiring
