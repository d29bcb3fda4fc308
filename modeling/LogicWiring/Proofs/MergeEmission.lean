-- What a program does for a shared handle. Each instruction writes the slot of
-- its own node, so the slot of a merge is written exactly if the merge has an
-- instruction, and it has one from two sources on that give a value.
import LogicWiring.Proofs.Merging
import LogicWiring.Proofs.SlotUse
import Mathlib

namespace LogicWiring

namespace Graph

/-! ## The recipe of a merge -/

variable {g : Graph} {merge : Merge}

theorem mem_ids_normalize {id : String} (h : id ∈ g.ids) : id ∈ g.normalize.graph.ids := by
  obtain ⟨n, hn, rfl⟩ := List.mem_map.1 h
  exact List.mem_map_of_mem (List.mem_append_left _ hn)

theorem node_of_merge (hm : merge ∈ g.merges) :
    g.normalize.graph.nodes[g.normalize.graph.index merge.node]? = some merge.toNode := by
  have hmem : merge.toNode ∈ g.normalize.graph.nodes :=
    List.mem_append_right _ (List.mem_map_of_mem hm)
  obtain ⟨i, hi⟩ := List.mem_iff_getElem?.1 hmem
  have hindex : g.normalize.graph.index merge.node = i := index_id hi
  rw [hindex, hi]

/-- The sources of a merge that give a value, in the order of their ids. -/
def carried (g : Graph) (merge : Merge) : List String :=
  merge.sources.filter fun source => !g.isSink source

theorem producers_merge (hm : merge ∈ g.merges) :
    g.normalize.graph.producers (g.normalize.graph.index merge.node) =
      (g.carried merge).map g.normalize.graph.index := by
  have hlinks : (g.normalize.graph.linksInto (g.normalize.graph.index merge.node)).map Link.source =
      merge.sources.map g.normalize.graph.index := by
    have hid : merge.toNode.id = merge.node := rfl
    rw [linksInto_eq (node_of_merge hm), hid, edges_into_merge hm, List.map_map]
    conv_rhs => rw [← merge.source_inputEdges, List.map_map]
    rfl
  rw [producers, hlinks, List.filter_map, carried]
  congr 1
  apply List.filter_congr
  intro source hsource
  have hmem : source ∈ g.normalize.graph.ids := mem_ids_normalize ((merge_ends hm).2 source hsource)
  rw [Function.comp_apply, isProducerAt, isSinkAt_index hmem, isSink_normalize]

theorem recipe_merge (hm : merge ∈ g.merges) :
    g.normalize.graph.recipe (g.normalize.graph.index merge.node) =
      if (g.carried merge).length < 2 then none
      else some {
        opcode := .or
        settings := [UInt8.ofNat (g.carried merge).length]
        sources := (g.carried merge).map g.normalize.graph.index } := by
  rw [recipe_eq (node_of_merge hm)]
  simp only [Merge.toNode, operands, producers_merge hm, List.length_map]
  split
  · rfl
  · simp [opcodeAt, GateOp.opcode, NodeKind.settings, NodeKind.pin]

theorem merge_of_group {group : Group} (h : group ∈ g.sharedGroups) :
    ∃ merge ∈ g.merges, merge.Joins group := by
  rw [sharedGroups_eq] at h
  obtain ⟨handle, hshared, rfl⟩ := List.mem_map.1 h
  obtain ⟨merge, hm, hjoins, -⟩ := driver_of_shared hshared
  exact ⟨merge, hm, hjoins⟩

theorem get_merge {m : SlotMap} (hs : m.Serves g.normalize.graph) (hm : merge ∈ g.merges) :
    ∃ out, m.get (g.normalize.graph.index merge.node) = some out := by
  have hn := node_of_merge hm
  refine hs.exists_slot (List.getElem?_eq_some_iff.1 hn).1 ?_
  rw [isSinkAt_of_getElem? hn]
  rfl

section

variable {m : SlotMap} {order : List Nat} {is : List Instruction} {out : UInt8}

/-- Two sources that give a value make the merge an OR of all that do. -/
theorem or_of_carried (hs : m.Serves g.normalize.graph) (ho : g.normalize.graph.IsOrder order)
    (hb : g.normalize.graph.body order m (g.normalize.graph.liveness order) = .ok is)
    (hm : merge ∈ g.merges) (hout : m.get (g.normalize.graph.index merge.node) = some out)
    (hl : g.normalize.graph.Live (g.normalize.graph.index merge.node))
    (hlen : 2 ≤ (g.carried merge).length) :
    ∃ ins ∈ is, ins.opcode = .or ∧ ins.access.out = some out ∧
      ins.access.inputs.map some =
        (g.carried merge).map fun source => m.get (g.normalize.graph.index source) := by
  have hrecipe := recipe_merge hm
  rw [if_neg (by omega)] at hrecipe
  have hi := (ho.mem_iff _).2 hl.lt_length
  obtain ⟨ins, hins, hreal⟩ := written_of_recipe hs (liveness_iff ho) hb hi hl hout hrecipe
  refine ⟨ins, hins, hreal.opcode, by rw [hreal.access], ?_⟩
  rw [hreal.access, List.map_map, List.map_map]
  apply List.map_congr_left
  intro source hsource
  have hproducer : g.normalize.graph.index source ∈
      g.normalize.graph.producers (g.normalize.graph.index merge.node) := by
    rw [producers_merge hm]
    exact List.mem_map_of_mem hsource
  exact (get_of_drives hs (drives_of_mem_producers hproducer)).symm

theorem carried_of_written {ins : Instruction} (hs : m.Serves g.normalize.graph)
    (ho : g.normalize.graph.IsOrder order)
    (hb : g.normalize.graph.body order m (g.normalize.graph.liveness order) = .ok is)
    (hm : merge ∈ g.merges) (hout : m.get (g.normalize.graph.index merge.node) = some out)
    (hins : ins ∈ is) (hw : ins.access.out = some out) : 2 ≤ (g.carried merge).length := by
  have hmem := mem_writtenSlots.2 ⟨ins, hins, hw⟩
  obtain ⟨-, -, hr⟩ := (mem_written_iff hs (liveness_iff ho) hb hout).1 hmem
  by_contra hlen
  rw [recipe_merge hm, if_pos (by omega)] at hr
  simp at hr

end

end Graph

/-! ## Shared handles in a program -/

/-- The merge of a live shared handle is written exactly if two or more of its sources give a
value, and then by an OR of those. With fewer no instruction writes it. -/
theorem merge_written_iff {g : Graph} {p : Program} (h : compile g = .ok p) :
    ∃ (order : List Nat) (m : SlotMap) (body : List PlacedInstruction),
      let n := g.normalize.graph
      n.evaluationOrder = .ok order ∧ n.allocate order = .ok m ∧
      decode (p.bytes.drop p.bodyOffset) = .ok body ∧
      ∀ group ∈ g.sharedGroups, ∃ merge ∈ g.normalize.merges, merge.Joins group ∧
        ((n.liveness order)[n.index merge.node]?.getD false = true →
          ∃ out, m.get (n.index merge.node) = some out ∧
          let carried := merge.sources.filter fun source => !g.isSink source
          ((∃ ins ∈ body.map PlacedInstruction.toInstruction,
              ins.opcode = .or ∧ ins.access.out = some out ∧
              ins.access.inputs.map some = carried.map fun source => m.get (n.index source)) ↔
            2 ≤ carried.length) ∧
          ((∃ ins ∈ body.map PlacedInstruction.toInstruction, ins.access.out = some out) ↔
            2 ≤ carried.length)) := by
  obtain ⟨order, m, is, ho, hm, hord, hserves, hbody, hdecode⟩ := body_of_compile h
  refine ⟨order, m, placeFrom 0 is, ho, hm, hdecode, fun group hgroup => ?_⟩
  obtain ⟨merge, hmem, hjoins⟩ := Graph.merge_of_group hgroup
  obtain ⟨out, hout⟩ := Graph.get_merge hserves hmem
  refine ⟨merge, hmem, hjoins, fun hlive => ⟨out, hout, ?_⟩⟩
  have hl := (Graph.liveness_iff hord _).1 hlive
  rw [map_toInstruction_placeFrom]
  refine ⟨⟨?_, ?_⟩, ⟨?_, ?_⟩⟩
  · rintro ⟨ins, hins, -, hw, -⟩
    exact Graph.carried_of_written hserves hord hbody hmem hout hins hw
  · exact Graph.or_of_carried hserves hord hbody hmem hout hl
  · rintro ⟨ins, hins, hw⟩
    exact Graph.carried_of_written hserves hord hbody hmem hout hins hw
  · intro hlen
    obtain ⟨ins, hins, -, hw, -⟩ := Graph.or_of_carried hserves hord hbody hmem hout hl hlen
    exact ⟨ins, hins, hw⟩

/-- An output that is wired on, to one handle with two inputs and to one with a single input. -/
def onward : Graph where
  nodes := [
    { id := "a", kind := .input (some 2) }, { id := "b", kind := .input (some 3) },
    { id := "o", kind := .output (some 8) }, { id := "q", kind := .output (some 9) },
    { id := "r", kind := .output (some 10) }]
  edges := [
    { source := "b", target := "q" }, { source := "o", target := "q" },
    { source := "a", target := "q" }, { source := "a", target := "r" },
    { source := "o", target := "r" }]
  ids_nodup := by decide
  ends_known := by decide

/-- The inputs joined in front of `q` and of `r`. -/
def onwardJoined : Graph where
  nodes := onward.nodes ++ [
    { id := "q.in.or", kind := .gate .or 3, synthetic := true },
    { id := "r.in.or", kind := .gate .or 2, synthetic := true }]
  edges := [
    { source := "a", target := "q.in.or", targetHandle := "in0" },
    { source := "b", target := "q.in.or", targetHandle := "in1" },
    { source := "o", target := "q.in.or", targetHandle := "in2" },
    { source := "q.in.or", target := "q" },
    { source := "a", target := "r.in.or", targetHandle := "in0" },
    { source := "o", target := "r.in.or", targetHandle := "in1" },
    { source := "r.in.or", target := "r" }]
  ids_nodup := by decide
  ends_known := by decide

def onwardSlots : SlotMap where
  slots := [some 0, some 1, none, none, none, some 2, some 3]
  count := 4

def onwardProgram : Program where
  bytes := [1, 2, 1, 3, 2, 8, 2, 9, 2, 10,
    3, 2, 0, 3, 3, 1, 4, 8, 0, 12, 2, 0, 1, 2, 4, 9, 2, 4, 10, 3]
  slotCount := 4
  bodyOffset := 10

theorem normalize_onward : onward.normalize.graph = onwardJoined :=
  Graph.ext_nodes_edges (by cbv) (by cbv)

theorem order_onward : onwardJoined.evaluationOrder = .ok [0, 1, 2, 5, 6, 3, 4] := by cbv

theorem slots_onward : onwardJoined.allocate [0, 1, 2, 5, 6, 3, 4] = .ok onwardSlots := by cbv

theorem live_onward : onwardJoined.liveness [0, 1, 2, 5, 6, 3, 4] = List.replicate 7 true := by
  decide

theorem compile_onward : compile onward = .ok onwardProgram := by
  rw [compile_of_stages normalize_onward order_onward slots_onward, Graph.program, live_onward]
  cbv

/-- The merge of `r` has slot 3. The output reads it, and no instruction writes it. -/
theorem onward_reads_unwritten :
    compile onward = .ok onwardProgram ∧
    ∃ (order : List Nat) (m : SlotMap) (body : List PlacedInstruction),
      let n := onward.normalize.graph
      n.evaluationOrder = .ok order ∧ n.allocate order = .ok m ∧
      decode (onwardProgram.bytes.drop onwardProgram.bodyOffset) = .ok body ∧
      ∃ merge ∈ onward.normalize.merges,
        merge.target = "r" ∧ (merge.sources.filter fun s => !onward.isSink s) = ["a"] ∧
        (n.liveness order)[n.index merge.node]?.getD false = true ∧
        m.get (n.index merge.node) = some 3 ∧
        (∃ ins ∈ body, ins.opcode = .writePin ∧ ins.access.inputs = [3]) ∧
        ∀ ins ∈ body, ins.access.out ≠ some 3 := by
  have hmerges : onward.normalize.merges =
      [⟨"q.in.or", "q", "in", ["a", "b", "o"]⟩, ⟨"r.in.or", "r", "in", ["a", "o"]⟩] := by cbv
  rw [normalize_onward, hmerges]
  refine ⟨compile_onward, [0, 1, 2, 5, 6, 3, 4], onwardSlots,
    placeFrom 0 [⟨.readPin, [2, 0]⟩, ⟨.readPin, [3, 1]⟩, ⟨.writePin, [8, 0]⟩,
      ⟨.or, [2, 0, 1, 2]⟩, ⟨.writePin, [9, 2]⟩, ⟨.writePin, [10, 3]⟩],
    order_onward, slots_onward, by cbv, ⟨"r.in.or", "r", "in", ["a", "o"]⟩, by simp, rfl,
    by decide, ?_, by decide, by decide, by decide⟩
  rw [live_onward]
  decide

theorem onward_merges :
    compile onward = .ok onwardProgram ∧
    ∃ (order : List Nat) (m : SlotMap) (body : List PlacedInstruction),
      let n := onward.normalize.graph
      n.evaluationOrder = .ok order ∧ n.allocate order = .ok m ∧
      decode (onwardProgram.bytes.drop onwardProgram.bodyOffset) = .ok body ∧
      ∀ group ∈ onward.sharedGroups, ∃ merge ∈ onward.normalize.merges, merge.Joins group ∧
        ((n.liveness order)[n.index merge.node]?.getD false = true →
          ∃ out, m.get (n.index merge.node) = some out ∧
          let carried := merge.sources.filter fun source => !onward.isSink source
          ((∃ ins ∈ body.map PlacedInstruction.toInstruction,
              ins.opcode = .or ∧ ins.access.out = some out ∧
              ins.access.inputs.map some = carried.map fun source => m.get (n.index source)) ↔
            2 ≤ carried.length) ∧
          ((∃ ins ∈ body.map PlacedInstruction.toInstruction, ins.access.out = some out) ↔
            2 ≤ carried.length)) :=
  ⟨compile_onward, merge_written_iff compile_onward⟩

end LogicWiring
