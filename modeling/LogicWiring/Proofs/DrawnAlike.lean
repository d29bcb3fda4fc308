-- Drawings between which it makes no difference. Merges that the author draws
-- as OR gates, and notes that nothing reads, leave the whole outcome as it is,
-- errors and the ids in them included. Main statements:
-- `compile_drawn_merges` and `compile_ignores_notes`.
import LogicWiring.Proofs.Building
import LogicWiring.Proofs.Redrawing
import LogicWiring.Proofs.SingleDriver
import Mathlib

namespace LogicWiring

/-! ## The same ids -/

theorem Graph.idAt_eq_of_ids {g g' : Graph} (h : g.ids = g'.ids) : g.idAt = g'.idAt := by
  have hids : ∀ (g : Graph) (i : Nat), g.idAt i = (g.ids[i]?).elim "" id := by
    intro g i
    rw [Graph.ids, List.getElem?_map]
    cases hn : g.nodes[i]? with
    | none => simp [Graph.idAt, hn]
    | some n => simp [Graph.idAt, hn]
  funext i
  rw [hids, hids, h]

/-- Graphs with the same ids have the same names for their places. -/
theorem Agree.eq_of_ids {g g' : Graph} {α : Type} {x x' : Except CompileError α}
    (h : Agree g g' x x') (hids : g.ids = g'.ids) : x = x' := by
  have hidAt := Graph.idAt_eq_of_ids hids
  cases h with
  | ok a => rfl
  | cycle places => rw [hidAt]
  | operandRange i field value max => rw [hidAt]
  | slotOverflow count max => rfl

/-- The ids of the merges come from their handles alone. -/
theorem Graph.mergeAll_nodes_eq (g g' : Graph) (taken : List String) (hs : List Handle) :
    (g.mergeAll taken hs).map Merge.node = (g'.mergeAll taken hs).map Merge.node := by
  induction hs generalizing taken with
  | nil => rfl
  | cons h rest ih =>
    have hnode : (g.merge taken h).node = (g'.merge taken h).node := rfl
    simp only [mergeAll, List.map_cons, hnode, ih]

theorem Graph.ids_normalize (g : Graph) :
    g.normalize.graph.ids = g.ids ++ g.merges.map Merge.node := by
  change (g.nodes ++ g.merges.map Merge.toNode).map Node.id = _
  rw [List.map_append, List.map_map]
  rfl

namespace Redrawing

variable {g g' : Graph}

theorem ids_eq (d : Redrawing g g') (h : ∀ id ∈ g.ids, d.rename id = id) : g'.ids = g.ids := by
  rw [Graph.ids, d.nodes_eq, List.map_map]
  apply List.map_congr_left
  intro n hn
  exact (d.node_id n hn).trans (h n.id (List.mem_map_of_mem hn))

theorem ids_normalize_eq (d : Redrawing g g') (h : ∀ id ∈ g.ids, d.rename id = id) :
    g'.normalize.graph.ids = g.normalize.graph.ids := by
  have hhandles : g'.sharedHandles = g.sharedHandles := by
    rw [d.sharedHandles_eq]
    refine (List.map_congr_left fun handle hh => ?_).trans (List.map_id _)
    unfold Redrawing.handle
    rw [h _ (Graph.node_mem_ids (Graph.mem_sharedHandles.1 hh).1)]
    rfl
  rw [Graph.ids_normalize, Graph.ids_normalize, Graph.merges, Graph.merges, d.ids_eq h, hhandles,
    g'.mergeAll_nodes_eq g]

/-- A graph that is drawn again under the same ids has the same outcome. -/
theorem compile_eq (d : Redrawing g g') (h : ∀ id ∈ g.ids, d.rename id = id) :
    compile g' = compile g :=
  (d.agrees.eq_of_ids (d.ids_normalize_eq h).symm).symm

end Redrawing

/-! ## Merges as drawn gates -/

/-- The node as if the author had drawn it. -/
def Node.drawn (n : Node) : Node := { n with synthetic := false }

/-- The graph as if the author had drawn all of it. -/
def Graph.drawn (g : Graph) : Graph where
  nodes := g.nodes.map Node.drawn
  edges := g.edges
  ids_nodup := by
    rw [List.map_map]
    exact g.ids_nodup
  ends_known := by
    rw [List.map_map]
    exact g.ends_known

/-- Who drew a node only matters if it has a pin. -/
def Redrawing.ofDrawn (g : Graph) (h : ∀ n ∈ g.nodes, n.synthetic = true → n.kind.pin = none) :
    Redrawing g g.drawn where
  rename id := id
  node := Node.drawn
  edge e := e
  nodes_eq := rfl
  edges_eq := (List.map_id _).symm
  node_id _ _ := rfl
  node_plain n hn := by
    unfold Node.plain Node.drawn
    by_cases hs : n.synthetic = true
    · simp [h n hn hs]
    · simp [hs]
  edge_source _ _ := rfl
  edge_target _ _ := rfl
  edge_handle _ _ _ := rfl
  increasing _ _ _ _ h := h

theorem Graph.compile_normalize (g : Graph) : compile g.normalize.graph = compile g := by
  have hsame : g.normalize.graph.normalize.graph = g.normalize.graph := by
    rw [Graph.normalize_of_nodup g.handles_normalize_nodup]
  simp only [compile, hsame]

/-- Wires that meet stand for an OR gate. In a graph that the author drew, the gates can be drawn
too, behind the other nodes: it builds, and what comes out is the same, program or error. -/
theorem compile_drawn_merges (g : Graph) (hdrawn : ∀ n ∈ g.nodes, n.synthetic = false) :
    ∃ g', Graph.build (g.normalize.graph.nodes.map fun n => { n with synthetic := false })
        g.normalize.graph.edges = .ok g' ∧
      g'.nodes = g.nodes ++ g.normalize.merges.map (fun m =>
        { id := m.node, kind := .gate .or (UInt32.ofNat m.sources.length), synthetic := false }) ∧
      compile g' = compile g := by
  have hpin : ∀ n ∈ g.normalize.graph.nodes, n.synthetic = true → n.kind.pin = none := by
    intro n hn hs
    rcases List.mem_append.1 hn with hn | hn
    · rw [hdrawn n hn] at hs
      cases hs
    · obtain ⟨m, -, rfl⟩ := List.mem_map.1 hn
      rfl
  have hauthored : g.nodes.map Node.drawn = g.nodes := by
    refine (List.map_congr_left fun n hn => ?_).trans (List.map_id _)
    rw [Node.drawn, ← hdrawn n hn]
    rfl
  refine ⟨g.normalize.graph.drawn, g.normalize.graph.drawn.build_self, ?_, ?_⟩
  · change (g.nodes ++ g.merges.map Merge.toNode).map Node.drawn = _
    rw [List.map_append, hauthored, List.map_map]
    rfl
  · rw [(Redrawing.ofDrawn g.normalize.graph hpin).compile_eq fun _ _ => rfl, g.compile_normalize]

theorem twins_drawn :
    (∀ n ∈ twins.nodes, n.synthetic = false) ∧
    ∃ g', Graph.build (twins.normalize.graph.nodes.map fun n => { n with synthetic := false })
        twins.normalize.graph.edges = .ok g' ∧
      g'.nodes = twins.nodes ++ [
        { id := "a.b.in.or", kind := .gate .or 2 }, { id := "a.b.in.or1", kind := .gate .or 2 }] ∧
      compile g' = .ok twinsProgram := by
  have hdrawn : ∀ n ∈ twins.nodes, n.synthetic = false := by decide
  have hmerges : twins.normalize.merges = [
      { node := "a.b.in.or", target := "a", handle := "b.in", sources := ["x", "y"] },
      { node := "a.b.in.or1", target := "a.b", handle := "in", sources := ["x", "y"] }] := by cbv
  obtain ⟨g', hbuild, hnodes, hcompile⟩ := compile_drawn_merges twins hdrawn
  rw [hmerges] at hnodes
  exact ⟨hdrawn, g', hbuild, hnodes, hcompile.trans compile_twins⟩

/-! ## Notes that nothing reads -/

/-- The same node, up to what the author noted as the number of wires of a gate. -/
inductive Node.SameButFanIn : Node → Node → Prop
  | same (n : Node) : SameButFanIn n n
  | gate (id : String) (op : GateOp) (fanIn fanIn' : UInt32) :
    SameButFanIn { id, kind := .gate op fanIn } { id, kind := .gate op fanIn' }

/-- The same wire, up to the name of the handle that it leaves and the name that it gives the one
handle of a sink. -/
structure Graph.SameWire (g : Graph) (e e' : Edge) : Prop where
  source : e.source = e'.source
  target : e.target = e'.target
  targetHandle : g.isSink e.target = false → e.targetHandle = e'.targetHandle

/-- The node without the number of wires of a gate. -/
def Node.bare (n : Node) : Node := { n with kind := n.kind.plain }

/-- The wire without the names that nothing reads. -/
def Graph.bareEdge (g : Graph) (e : Edge) : Edge where
  source := e.source
  sourceHandle := ""
  target := e.target
  targetHandle := if g.isSink e.target then "" else e.targetHandle

/-- The graph without notes. -/
def Graph.bare (g : Graph) : Graph where
  nodes := g.nodes.map Node.bare
  edges := g.edges.map g.bareEdge
  ids_nodup := by
    rw [List.map_map]
    exact g.ids_nodup
  ends_known := by
    intro e' he'
    obtain ⟨e, he, rfl⟩ := List.mem_map.1 he'
    rw [List.map_map]
    exact g.ends_known e he

theorem Node.plain_bare (n : Node) : n.bare.plain = n.plain := by
  unfold Node.plain Node.bare
  cases hk : n.kind <;> simp [NodeKind.plain, NodeKind.pin]

def Redrawing.ofBare (g : Graph) : Redrawing g g.bare where
  rename id := id
  node := Node.bare
  edge := g.bareEdge
  nodes_eq := rfl
  edges_eq := rfl
  node_id _ _ := rfl
  node_plain n _ := n.plain_bare
  edge_source _ _ := rfl
  edge_target _ _ := rfl
  edge_handle e _ hs := by simp [Graph.bareEdge, hs]
  increasing _ _ _ _ h := h

theorem Node.SameButFanIn.bare_eq {n n' : Node} (h : n.SameButFanIn n') : n.bare = n'.bare := by
  cases h with
  | same => rfl
  | gate id op fanIn fanIn' => rfl

/-- Whether a node is a sink shows without the notes. -/
theorem Graph.isSink_bare (g : Graph) (id : String) : g.bare.isSink id = g.isSink id := by
  unfold Graph.isSink bare
  rw [List.any_map]
  congr 1
  funext n
  cases hk : n.kind <;> simp [Node.bare, NodeKind.plain, NodeKind.isSink, hk]

theorem Graph.bare_eq {g g' : Graph} (hnodes : List.Forall₂ Node.SameButFanIn g.nodes g'.nodes)
    (hedges : List.Forall₂ g.SameWire g.edges g'.edges) : g.bare = g'.bare := by
  have hbare : g.bare.nodes = g'.bare.nodes :=
    map_eq_of_forall₂ (hnodes.imp fun _ _ h => h.bare_eq)
  have hsink : g.isSink = g'.isSink := by
    funext id
    rw [← g.isSink_bare, ← g'.isSink_bare, Graph.isSink, Graph.isSink, hbare]
  refine Graph.ext_nodes_edges hbare (map_eq_of_forall₂ (hedges.imp fun e e' h => ?_))
  unfold Graph.bareEdge
  rw [← hsink, ← h.source, ← h.target]
  by_cases hs : g.isSink e.target = true
  · rw [if_pos hs, if_pos hs]
  · rw [if_neg hs, if_neg hs, h.targetHandle (by simpa using hs)]

/-- What the author notes at a gate or beside a wire does not come through. Graphs that are the same
but for that have the same outcome, program or error. -/
theorem compile_ignores_notes (g g' : Graph)
    (hnodes : List.Forall₂ Node.SameButFanIn g.nodes g'.nodes)
    (hedges : List.Forall₂ g.SameWire g.edges g'.edges) : compile g = compile g' := by
  have hg := (Redrawing.ofBare g).compile_eq fun _ _ => rfl
  have hg' := (Redrawing.ofBare g').compile_eq fun _ _ => rfl
  rw [← hg, ← hg', Graph.bare_eq hnodes hedges]

/-- A gate of two wires, and an output that two wires end at. -/
def noted : Graph where
  nodes := [{ id := "a", kind := .input (some 2) }, { id := "b", kind := .input (some 3) },
    { id := "g", kind := .gate .and 2 }, { id := "o", kind := .output (some 8) }]
  edges := [{ source := "a", target := "g", targetHandle := "in0" },
    { source := "b", target := "g", targetHandle := "in1" },
    { source := "g", target := "o" }, { source := "a", target := "o" }]
  ids_nodup := by decide
  ends_known := by decide

/-- The same with nine wires noted at the gate, and with other names at the output. -/
def notedAgain : Graph where
  nodes := [{ id := "a", kind := .input (some 2) }, { id := "b", kind := .input (some 3) },
    { id := "g", kind := .gate .and 9 }, { id := "o", kind := .output (some 8) }]
  edges := [{ source := "a", sourceHandle := "q", target := "g", targetHandle := "in0" },
    { source := "b", target := "g", targetHandle := "in1" },
    { source := "g", sourceHandle := "", target := "o", targetHandle := "top" },
    { source := "a", target := "o", targetHandle := "in0" }]
  ids_nodup := by decide
  ends_known := by decide

/-- The two drivers joined in front of the output. -/
def notedJoined : Graph where
  nodes := noted.nodes ++ [{ id := "o.in.or", kind := .gate .or 2, synthetic := true }]
  edges := [{ source := "a", target := "g", targetHandle := "in0" },
    { source := "b", target := "g", targetHandle := "in1" },
    { source := "a", target := "o.in.or", targetHandle := "in0" },
    { source := "g", target := "o.in.or", targetHandle := "in1" },
    { source := "o.in.or", target := "o" }]
  ids_nodup := by decide
  ends_known := by decide

def notedProgram : Program where
  bytes := [1, 2, 1, 3, 2, 8, 3, 2, 0, 3, 3, 1, 11, 2, 0, 1, 2, 12, 2, 0, 2, 3, 4, 8, 3]
  slotCount := 4
  bodyOffset := 6

theorem compile_noted : compile noted = .ok notedProgram := by
  have hjoined : noted.normalize.graph = notedJoined := Graph.ext_nodes_edges (by cbv) (by cbv)
  have horder : notedJoined.evaluationOrder = .ok [0, 1, 2, 4, 3] := by cbv
  have hslots : notedJoined.allocate [0, 1, 2, 4, 3] =
      .ok { slots := [some 0, some 1, some 2, none, some 3], count := 4 } := by cbv
  have hlive : notedJoined.liveness [0, 1, 2, 4, 3] = List.replicate 5 true := by decide
  rw [compile_of_stages hjoined horder hslots, Graph.program, hlive]
  cbv

theorem noted_again_outcome :
    List.Forall₂ Node.SameButFanIn noted.nodes notedAgain.nodes ∧
    List.Forall₂ noted.SameWire noted.edges notedAgain.edges ∧
    compile notedAgain = .ok notedProgram := by
  have hnodes : List.Forall₂ Node.SameButFanIn noted.nodes notedAgain.nodes :=
    .cons (.same _) (.cons (.same _) (.cons (.gate "g" .and 2 9) (.cons (.same _) .nil)))
  have hedges : List.Forall₂ noted.SameWire noted.edges notedAgain.edges :=
    .cons ⟨rfl, rfl, fun _ => rfl⟩ (.cons ⟨rfl, rfl, fun _ => rfl⟩
      (.cons ⟨rfl, rfl, fun h => absurd h (by decide)⟩
        (.cons ⟨rfl, rfl, fun h => absurd h (by decide)⟩ .nil)))
  refine ⟨hnodes, hedges, ?_⟩
  rw [← compile_ignores_notes noted notedAgain hnodes hedges, compile_noted]

end LogicWiring
