-- A compiled program computes what the graph means. One cycle of the body is
-- followed node by node along the order of evaluation: what is placed holds
-- its value, what waits is untouched. Main statement:
-- `compile_preserves_values`.
import LogicWiring.Proofs.Compiled
import Mathlib

namespace LogicWiring

universe u

namespace Graph

/-! ## Outputs -/

/-- An output that has a pin. -/
def isRouted (g : Graph) (i : Nat) : Bool :=
  match g.kindAt i with
  | some (.output (some _)) => true
  | _ => false

/-- A write to the pin of an output, of the value of its first producer if it has one. -/
def Writes {V : Type u} (g : Graph) (value : Nat → V) (i : Nat) (write : UInt8 × V) : Prop :=
  ∃ pin, g.kindAt i = some (.output (some pin)) ∧ write.1.toNat = pin.toNat ∧
    ∀ j, (g.producers i).head? = some j → write.2 = value j

theorem isRouted_iff {g : Graph} {i : Nat} :
    g.isRouted i = true ↔ ∃ pin, g.kindAt i = some (.output (some pin)) := by
  unfold isRouted
  split
  · simp [*]
  · rename_i h
    constructor
    · intro hf
      simp at hf
    · rintro ⟨pin, hp⟩
      exact absurd hp (h pin)

theorem isSinkAt_of_isRouted {g : Graph} {i : Nat} (h : g.isRouted i = true) :
    g.isSinkAt i = true := by
  obtain ⟨pin, hk⟩ := isRouted_iff.1 h
  obtain ⟨n, hn, hkind⟩ := Option.map_eq_some_iff.1 hk
  rw [isSinkAt_of_getElem? hn, hkind]
  rfl

theorem live_of_isRouted {g : Graph} {i : Nat} (h : g.isRouted i = true) : g.Live i := by
  obtain ⟨pin, hk⟩ := isRouted_iff.1 h
  exact .routed hk

/-- A node with a slot is no output. -/
theorem isRouted_eq_false {g : Graph} {m : SlotMap} {i : Nat} {out : UInt8} (hs : m.Serves g)
    (hout : m.get i = some out) : g.isRouted i = false := by
  have hsink := ((hs.isSome_iff i).1 (by simp [hout])).2
  by_contra hr
  rw [isSinkAt_of_isRouted (by simpa using hr)] at hsink
  simp at hsink

/-- A live sink is an output with a pin. -/
theorem isRouted_of_live {g : Graph} {i : Nat} (hl : g.Live i) (hs : g.isSinkAt i = true) :
    g.isRouted i = true := by
  rcases live_iff.1 hl with hr | ⟨⟨kind, hk, hno, -⟩, -⟩
  · exact isRouted_iff.2 hr
  · obtain ⟨n, hn, hkind⟩ := Option.map_eq_some_iff.1 hk
    rw [isSinkAt_of_getElem? hn, hkind, hno] at hs
    simp at hs

/-! ## The invariant -/

variable {V : Type u} {g : Graph} {m : SlotMap} {value start : Nat → V}
  {before after order : List Nat} {c : Controller V} {i : Nat}

/-- The state after the nodes `before`: their slots hold their values, the slots of all others
what they held at the start, and their outputs are written. -/
structure Matches (g : Graph) (m : SlotMap) (value start : Nat → V) (before : List Nat)
    (c : Controller V) : Prop where
  placed : ∀ j s, m.get j = some s → j ∈ before → c.memory s = value j
  waiting : ∀ j s, m.get j = some s → j ∉ before → c.memory s = start j
  writes : List.Forall₂ (g.Writes value) (before.filter g.isRouted) c.writes

namespace Matches

/-- A node without an instruction keeps what its slot held. -/
theorem skip (h : g.Matches m value start before c) (hi : i ∉ before) (hv : value i = start i)
    (hr : g.isRouted i = false) : g.Matches m value start (before ++ [i]) c := by
  refine ⟨?_, ?_, ?_⟩
  · intro j s hs hj
    rcases List.mem_append.1 hj with hj | hj
    · exact h.placed j s hs hj
    · cases List.mem_singleton.1 hj
      rw [hv]
      exact h.waiting i s hs hi
  · intro j s hs hj
    exact h.waiting j s hs fun hb => hj (List.mem_append.2 (.inl hb))
  · simpa [List.filter_append, hr] using h.writes

/-- A producer puts its value in its own slot, which no other node has. -/
theorem produce {out : UInt8} {v : V} (h : g.Matches m value start before c) (hs : m.Serves g)
    (hout : m.get i = some out) (hv : v = value i) :
    g.Matches m value start (before ++ [i])
      { c with memory := Function.update c.memory out v } := by
  have hr := isRouted_eq_false hs hout
  have hother : ∀ j s, m.get j = some s → j ≠ i →
      Function.update c.memory out v s = c.memory s := by
    intro j s hj hji
    apply Function.update_of_ne
    rintro rfl
    exact hji (hs.inj j i s hj hout)
  refine ⟨?_, ?_, ?_⟩
  · intro j s hj hm
    by_cases hji : j = i
    · subst hji
      cases hout.symm.trans hj
      simp [hv]
    · have hb : j ∈ before := by simpa [hji] using hm
      exact (hother j s hj hji).trans (h.placed j s hj hb)
  · intro j s hj hm
    have hm' : j ∉ before ∧ j ≠ i := by simpa using hm
    exact (hother j s hj hm'.2).trans (h.waiting j s hj hm'.1)
  · simpa [List.filter_append, hr] using h.writes

theorem write {w : UInt8 × V} (h : g.Matches m value start before c)
    (hout : m.get i = none) (hr : g.isRouted i = true) (hw : g.Writes value i w) :
    g.Matches m value start (before ++ [i]) { c with writes := c.writes ++ [w] } := by
  refine ⟨?_, ?_, ?_⟩
  · intro j s hj hm
    have hji : j ≠ i := by
      rintro rfl
      simp [hout] at hj
    exact h.placed j s hj (by simpa [hji] using hm)
  · intro j s hj hm
    exact h.waiting j s hj fun hb => hm (List.mem_append.2 (.inl hb))
  · rw [List.filter_append, List.filter_singleton, hr, cond_true]
    exact List.rel_append h.writes (.cons hw .nil)

/-- The drivers of a node stand before it, so their slots hold their values by then. -/
theorem memory_slot {j : Nat} (h : g.Matches m value start before c) (hs : m.Serves g)
    (ho : g.IsOrder order) (hsplit : order = before ++ i :: after) (hd : g.Drives j i) :
    c.memory (m.slot j) = value j :=
  h.placed j _ (get_of_drives hs hd) (ho.mem_before hsplit hd.1)

end Matches

/-! ## One node, and all -/

variable {acyclic : WellFounded g.Feeds} {F : Interpretation V} {pins : UInt8 → V}
  {live : List Bool}

/-- What a node adds to the body computes its value. -/
theorem Matches.step {first : List Instruction}
    (h : g.Matches m (g.value acyclic F pins start) start before c) (hs : m.Serves g)
    (ho : g.IsOrder order) (hsplit : order = before ++ i :: after)
    (hlive : live[i]?.getD false = true ↔ g.Live i) (ha : g.Adds m live i first) :
    g.Matches m (g.value acyclic F pins start) start (before ++ [i])
      (Controller.run F pins c first) := by
  have hi : i ∉ before := notMem_before (hsplit ▸ ho.nodup)
  unfold Adds at ha
  by_cases hl : g.Live i
  · rw [if_pos (hlive.2 hl)] at ha
    obtain ⟨res, hres, rfl⟩ := ha
    cases hout : m.get i with
    | some out =>
      have hr := isRouted_eq_false hs hout
      have hrel := instruction_of_producer hs hout hl hres
      cases hrec : g.recipe i with
      | none =>
        rw [hrec] at hrel
        cases hrel
        exact h.skip hi (value_of_no_recipe hrec) hr
      | some r =>
        rw [hrec] at hrel
        cases hrel with
        | some hreal =>
          rename_i ins
          simp only [Option.toList_some, Controller.run, List.foldl_cons, List.foldl_nil]
          rw [Controller.step_of_out (by rw [hreal.access])]
          apply h.produce hs hout
          have hinputs : (r.sources.map m.slot).map c.memory =
              r.sources.map (g.value acyclic F pins start) := by
            rw [List.map_map]
            apply List.map_congr_left
            intro j hj
            exact h.memory_slot hs ho hsplit (drives_of_mem_sources hrec hj)
          rw [value_of_recipe hl hrec, Controller.result, hreal.access, hreal.opcode]
          simp only [hinputs, h.waiting i out hout hi]
    | none =>
      have hlt : i < g.nodes.length := (ho.mem_iff i).1 (by simp [hsplit])
      have hr := isRouted_of_live hl (hs.isSinkAt_of_get_eq_none hlt hout)
      obtain ⟨pin, hk⟩ := isRouted_iff.1 hr
      obtain ⟨hle, rfl⟩ := instruction_of_output hs hk hres
      simp only [Option.toList_some, Controller.run, List.foldl_cons, List.foldl_nil]
      rw [Controller.step_of_pin rfl rfl]
      apply h.write hout hr
      refine ⟨pin, hk, ?_, ?_⟩
      · show pin.toUInt8.toNat = pin.toNat
        rw [UInt32.toNat_toUInt8]
        omega
      · intro j hj
        have hd := drives_of_mem_producers (List.mem_of_head? hj)
        rw [← h.memory_slot hs ho hsplit hd]
        show c.memory (((g.producers i).map m.slot).headD 0) = _
        rw [List.headD_eq_head?_getD, List.head?_map, hj]
        rfl
  · rw [if_neg fun hl' => hl (hlive.1 hl')] at ha
    subst ha
    have hr : g.isRouted i = false := by
      by_contra hr
      exact hl (live_of_isRouted (by simpa using hr))
    exact h.skip hi (value_of_not_live hl) hr

theorem Matches.run {rest : List Nat} {is : List Instruction}
    (h : g.Matches m (g.value acyclic F pins start) start before c) (hs : m.Serves g)
    (ho : g.IsOrder order) (hsplit : order = before ++ rest)
    (hlive : ∀ i, live[i]?.getD false = true ↔ g.Live i) (hb : g.body rest m live = .ok is) :
    g.Matches m (g.value acyclic F pins start) start order (Controller.run F pins c is) := by
  induction rest generalizing before c is with
  | nil =>
    cases hb
    rw [List.append_nil] at hsplit
    exact hsplit ▸ h
  | cons i rest ih =>
    obtain ⟨first, later, rfl, ha, hlater⟩ := body_cons hb
    rw [Controller.run_append]
    exact ih (h.step hs ho hsplit (hlive i) ha) (by simp [hsplit]) hlater

end Graph

/-- What stands after the pin modes of a program is the body of an order, with a slot map that
serves the normalized graph. -/
theorem body_of_compile {g : Graph} {p : Program} (h : compile g = .ok p) :
    ∃ order m is, g.normalize.graph.evaluationOrder = .ok order ∧
      g.normalize.graph.allocate order = .ok m ∧
      g.normalize.graph.IsOrder order ∧ m.Serves g.normalize.graph ∧
      g.normalize.graph.body order m (g.normalize.graph.liveness order) = .ok is ∧
      decode (p.bytes.drop p.bodyOffset) = .ok (placeFrom 0 is) := by
  obtain ⟨order, m, modes, is, hc⟩ := compiled_of_compile h
  exact ⟨order, m, is, hc.order_eq, hc.slots_eq, hc.isOrder, hc.serves, hc.body_eq, hc.decode_body⟩

/-- Two inputs that meet in one output, and an inverter that nothing reads. -/
def meeting : Graph where
  nodes := [{ id := "a", kind := .input (some 2) }, { id := "o", kind := .output (some 8) },
    { id := "b", kind := .input (some 3) }, { id := "n", kind := .not }]
  edges := [{ source := "b", target := "o" }, { source := "a", target := "o" },
    { source := "a", target := "n" }]
  ids_nodup := by decide
  ends_known := by decide

/-- The two inputs joined in front of the output. -/
def meetingJoined : Graph where
  nodes := meeting.nodes ++ [{ id := "o.in.or", kind := .gate .or 2, synthetic := true }]
  edges := [{ source := "a", target := "n" },
    { source := "a", target := "o.in.or", targetHandle := "in0" },
    { source := "b", target := "o.in.or", targetHandle := "in1" },
    { source := "o.in.or", target := "o" }]
  ids_nodup := by decide
  ends_known := by decide

def meetingProgram : Program where
  bytes := [1, 2, 2, 8, 1, 3, 3, 2, 0, 3, 3, 1, 10, 0, 2, 12, 2, 0, 1, 3, 4, 8, 3]
  slotCount := 4
  bodyOffset := 6

theorem compile_meeting : compile meeting = .ok meetingProgram := by
  have hjoined : meeting.normalize.graph = meetingJoined :=
    Graph.ext_nodes_edges (by cbv) (by cbv)
  have hlive : meetingJoined.liveness [0, 2, 3, 4, 1] = List.replicate 5 true := by decide
  have ho : meetingJoined.evaluationOrder = .ok [0, 2, 3, 4, 1] := by cbv
  have hm : meetingJoined.allocate [0, 2, 3, 4, 1] =
      .ok { slots := [some 0, none, some 1, some 2, some 3], count := 4 } := by cbv
  rw [compile_of_stages hjoined ho hm, Graph.program, hlive]
  cbv

end LogicWiring
