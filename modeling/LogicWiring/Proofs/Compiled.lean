-- How a program came about: the order and the slots of the normalized graph,
-- its pin modes and its body. What is said of a compiled program starts from
-- these parts.
import LogicWiring.Proofs.ReadBack

namespace LogicWiring

/-- The parts that a program of the graph is put together from. -/
structure Graph.Compiled (g : Graph) (p : Program) (order : List Nat) (m : SlotMap)
    (modes body : List Instruction) : Prop where
  order_eq : g.normalize.graph.evaluationOrder = .ok order
  slots_eq : g.normalize.graph.allocate order = .ok m
  modes_eq : g.normalize.graph.preamble (g.normalize.graph.liveness order) = .ok modes
  body_eq : g.normalize.graph.body order m (g.normalize.graph.liveness order) = .ok body
  program_eq : p = {
    bytes := encode modes ++ encode body
    slotCount := m.count
    bodyOffset := (encode modes).length }

theorem compiled_of_compile {g : Graph} {p : Program} (h : compile g = .ok p) :
    ∃ order m modes body, g.Compiled p order m modes body := by
  obtain ⟨order, m, ho, hm, hp⟩ := compile_eq_ok.1 h
  obtain ⟨modes, body, hmodes, hbody, rfl⟩ := Graph.program_eq_ok hp
  exact ⟨order, m, modes, body, ho, hm, hmodes, hbody, rfl⟩

namespace Graph.Compiled

variable {g : Graph} {p : Program} {order : List Nat} {m : SlotMap}
  {modes body : List Instruction}

theorem isOrder (h : g.Compiled p order m modes body) : g.normalize.graph.IsOrder order :=
  isOrder_of_evaluationOrder h.order_eq

theorem serves (h : g.Compiled p order m modes body) : m.Serves g.normalize.graph :=
  serves_of_allocate h.isOrder h.slots_eq

theorem live_iff (h : g.Compiled p order m modes body) (i : Nat) :
    (g.normalize.graph.liveness order)[i]?.getD false = true ↔ g.normalize.graph.Live i :=
  liveness_iff h.isOrder i

theorem decode_modes (h : g.Compiled p order m modes body) :
    decode (p.bytes.take p.bodyOffset) = .ok (placeFrom 0 modes) := by
  rw [h.program_eq, List.take_left]
  exact decodeFrom_encode (fun _ hi => (of_mem_preamble h.modes_eq hi).1) 0

theorem decode_body (h : g.Compiled p order m modes body) :
    decode (p.bytes.drop p.bodyOffset) = .ok (placeFrom 0 body) := by
  rw [h.program_eq, List.drop_left]
  exact Graph.decode_body h.body_eq

theorem decode_bytes (h : g.Compiled p order m modes body) :
    decode p.bytes = .ok (placeFrom 0 (modes ++ body)) := by
  rw [h.program_eq, ← encode_append]
  refine decodeFrom_encode (fun ins hins => ?_) 0
  rcases List.mem_append.1 hins with hins | hins
  · exact (of_mem_preamble h.modes_eq hins).1
  · exact (of_mem_body h.body_eq hins).1

end Graph.Compiled

end LogicWiring
