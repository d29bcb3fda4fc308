-- The same wiring drawn again: under other ids, which stand in the same
-- order, and with other words where nothing reads them. Where the links of
-- the normalized graph lead does not depend on the ids that the merges get,
-- so both drawings are compiled alike. Main statement: `compile_rename`.
import LogicWiring.Proofs.Failures
import LogicWiring.Proofs.Merging
import LogicWiring.Proofs.SameWiring
import Mathlib

namespace LogicWiring

namespace Graph

variable {g : Graph}

/-! ## The links of the normalized graph -/

theorem index_normalize {id : String} (h : id ∈ g.ids) :
    g.normalize.graph.index id = g.index id := by
  obtain ⟨n, hn, rfl⟩ := getElem?_index h
  exact index_id (getElem?_normalize hn)

theorem isSinkAt_normalize {id : String} (h : id ∈ g.ids) :
    g.normalize.graph.isSinkAt (g.index id) = g.isSink id := by
  obtain ⟨n, hn, rfl⟩ := getElem?_index h
  rw [isSinkAt_of_getElem? (getElem?_normalize hn), isSink_of_mem (List.mem_of_getElem? hn)]

/-- The merge nodes stand behind the nodes of the author, in the order of the merges. -/
theorem index_merge {m : Merge} {k : Nat} (h : g.merges[k]? = some m) :
    g.normalize.graph.index m.node = g.nodes.length + k := by
  have hnode : g.normalize.graph.nodes[g.nodes.length + k]? = some m.toNode := by
    change (g.nodes ++ g.merges.map Merge.toNode)[g.nodes.length + k]? = some m.toNode
    rw [List.getElem?_append_right (Nat.le_add_right _ _), Nat.add_sub_cancel_left,
      List.getElem?_map, h, Option.map_some]
  exact index_id hnode

/-- The links into and out of the node at place `i` that joins the drivers of a handle. -/
def mergeLinks (g : Graph) (i : Nat) (h : Handle) : List Link :=
  ((g.driversOf h).mergeSort fun a b => decide (a ≤ b)).zipIdx.map
      (fun (source, k) => ⟨g.index source, i, "in" ++ k.repr⟩) ++
    [⟨i, g.index h.node, h.text⟩]

theorem links_of_merge {m : Merge} {k : Nat} (h : g.merges[k]? = some m) :
    m.edges.map (Edge.link g.normalize.graph.nodes) =
      g.mergeLinks (g.nodes.length + k) (g.handleOf m.outputEdge) := by
  have hm : m ∈ g.merges := List.mem_of_getElem? h
  obtain ⟨htarget, hsources⟩ := merge_ends hm
  have hplace := index_merge h
  obtain ⟨taken, handle, hh, rfl⟩ := mem_mergeAll hm
  have he : g.handleOf (g.merge taken handle).outputEdge = handle :=
    handleOf_text (mem_sharedHandles.1 hh).1 _
  rw [he, Merge.edges, mergeLinks, List.map_append, List.map_map]
  congr 1
  · apply List.map_congr_left
    intro p hp
    have hp := hsources p.1 (List.fst_mem_of_mem_zipIdx hp)
    exact congrArg₂ (fun source target => (⟨source, target, _⟩ : Link)) (index_normalize hp) hplace
  · exact congrArg₂ (fun source target => [(⟨source, target, _⟩ : Link)]) hplace
      (index_normalize htarget)

/-- The ids of the merge nodes do not show in the links. -/
theorem links_normalize (g : Graph) :
    g.normalize.graph.links = g.unsharedEdges.map (Edge.link g.nodes) ++
      g.sharedHandles.zipIdx.flatMap fun (h, k) => g.mergeLinks (g.nodes.length + k) h := by
  rw [g.normalize.graph.links_eq, edges_normalize, List.map_append, List.map_flatMap,
    ← handleOf_outputEdges, List.zipIdx_map, List.flatMap_map]
  congr 1
  · apply List.map_congr_left
    intro e he
    obtain ⟨hsource, htarget⟩ := g.ends_known e (mem_unsharedEdges.1 he).1
    exact congrArg₂ (fun source target => (⟨source, target, _⟩ : Link)) (index_normalize hsource)
      (index_normalize htarget)
  · conv_lhs => rw [← List.zipIdx_map_fst 0 g.merges, List.flatMap_map]
    apply List.flatMap_congr
    rintro ⟨m, k⟩ hm
    exact links_of_merge (List.mem_zipIdx_iff_getElem?.1 hm)

/-- What a program depends on in the nodes: those of the author, and an OR for each shared
handle. -/
theorem plain_normalize (g : Graph) : g.normalize.graph.nodes.map Node.plain =
    g.nodes.map Node.plain ++ g.sharedHandles.map fun _ => (.gate .or 0, false) := by
  change (g.nodes ++ g.merges.map Merge.toNode).map Node.plain = _
  rw [List.map_append, ← handleOf_outputEdges, List.map_map, List.map_map]
  rfl

end Graph

/-! ## Drawing again -/

theorem inj_of_increasing {ids : List String} {r : String → String}
    (hr : ∀ a ∈ ids, ∀ b ∈ ids, a < b → r a < r b) {a b : String} (ha : a ∈ ids) (hb : b ∈ ids)
    (h : r a = r b) : a = b := by
  rcases lt_trichotomy a b with hlt | he | hlt
  · exact absurd h (hr a ha b hb hlt).ne
  · exact he
  · exact absurd h (hr b hb a ha hlt).ne'

theorem eraseDups_map {α β : Type} [DecidableEq α] [DecidableEq β] {f : α → β} {l : List α}
    (hf : ∀ a ∈ l, ∀ b ∈ l, f a = f b → a = b) : (l.map f).eraseDups = l.eraseDups.map f := by
  induction l using List.reverseRecOn with
  | nil => rfl
  | append_singleton l a ih =>
    have hl : ∀ x ∈ l, ∀ y ∈ l, f x = f y → x = y := fun x hx y hy =>
      hf x (List.mem_append_left _ hx) y (List.mem_append_left _ hy)
    have hmem : f a ∈ l.map f ↔ a ∈ l := by
      rw [List.mem_map]
      constructor
      · rintro ⟨x, hx, he⟩
        rw [← hf x (List.mem_append_left _ hx) a (by simp) he]
        exact hx
      · exact fun ha => ⟨a, ha, rfl⟩
    rw [List.map_append, List.map_singleton, eraseDups_concat, eraseDups_concat, ih hl]
    by_cases ha : a ∈ l
    · rw [if_pos (hmem.2 ha), if_pos ha]
    · rw [if_neg (mt hmem.1 ha), if_neg ha, List.map_append, List.map_singleton]

/-- The second graph is the first one drawn again. Ids are renamed and keep their order; what was
drawn beside a gate and what a wire calls the handle of a sink may change. -/
structure Redrawing (g g' : Graph) where
  rename : String → String
  node : Node → Node
  edge : Edge → Edge
  nodes_eq : g'.nodes = g.nodes.map node
  edges_eq : g'.edges = g.edges.map edge
  node_id : ∀ n ∈ g.nodes, (node n).id = rename n.id
  node_plain : ∀ n ∈ g.nodes, (node n).plain = n.plain
  edge_source : ∀ e ∈ g.edges, (edge e).source = rename e.source
  edge_target : ∀ e ∈ g.edges, (edge e).target = rename e.target
  edge_handle : ∀ e ∈ g.edges, g.isSink e.target = false →
    (edge e).targetHandle = e.targetHandle
  increasing : ∀ a ∈ g.ids, ∀ b ∈ g.ids, a < b → rename a < rename b

namespace Redrawing

variable {g g' : Graph}

theorem rename_le_iff (d : Redrawing g g') {a b : String} (ha : a ∈ g.ids) (hb : b ∈ g.ids) :
    a ≤ b ↔ d.rename a ≤ d.rename b := by
  rcases lt_trichotomy a b with h | rfl | h
  · exact iff_of_true h.le (d.increasing a ha b hb h).le
  · exact iff_of_true le_rfl le_rfl
  · exact iff_of_false h.not_ge (d.increasing b hb a ha h).not_ge

theorem rename_inj (d : Redrawing g g') {a b : String} (ha : a ∈ g.ids) (hb : b ∈ g.ids)
    (h : d.rename a = d.rename b) : a = b :=
  inj_of_increasing d.increasing ha hb h

theorem length_eq (d : Redrawing g g') : g'.nodes.length = g.nodes.length := by
  rw [d.nodes_eq, List.length_map]

/-- Each node keeps its place. -/
theorem index_eq (d : Redrawing g g') {id : String} (h : id ∈ g.ids) :
    g'.index (d.rename id) = g.index id := by
  obtain ⟨n, hn, rfl⟩ := Graph.getElem?_index h
  have hn' : g'.nodes[g.index n.id]? = some (d.node n) := by
    rw [d.nodes_eq, List.getElem?_map, hn, Option.map_some]
  rw [← d.node_id n (List.mem_of_getElem? hn)]
  exact Graph.index_id hn'

theorem isSink_eq (d : Redrawing g g') {id : String} (h : id ∈ g.ids) :
    g'.isSink (d.rename id) = g.isSink id := by
  obtain ⟨n, hn, rfl⟩ := List.mem_map.1 h
  have hn' : d.node n ∈ g'.nodes := by
    rw [d.nodes_eq]
    exact List.mem_map_of_mem hn
  rw [← d.node_id n hn, Graph.isSink_of_mem hn', Graph.isSink_of_mem hn]
  exact Node.isSink_of_plain (d.node_plain n hn)

/-! ## Handles -/

/-- The handle in the new drawing. -/
def handle (d : Redrawing g g') (h : Handle) : Handle := { h with node := d.rename h.node }

theorem handleOf_eq (d : Redrawing g g') {e : Edge} (he : e ∈ g.edges) :
    g'.handleOf (d.edge e) = d.handle (g.handleOf e) := by
  have htarget : e.target ∈ g.ids := (g.ends_known e he).2
  have hhandle := d.edge_handle e he
  unfold Graph.handleOf handle
  rw [d.edge_target e he, d.isSink_eq htarget]
  by_cases hs : g.isSink e.target = true
  · simp [hs]
  · simp [hs, hhandle (by simpa using hs)]

theorem handle_inj (d : Redrawing g g') {h h' : Handle} (hh : h ∈ g.handles) (hh' : h' ∈ g.handles)
    (he : d.handle h = d.handle h') : h = h' := by
  obtain ⟨hnode, hname⟩ := Handle.mk.inj he
  have := d.rename_inj (Graph.node_mem_ids hh) (Graph.node_mem_ids hh') hnode
  cases h
  cases h'
  simp_all

theorem handles_eq (d : Redrawing g g') : g'.handles = g.handles.map d.handle := by
  rw [Graph.handles, Graph.handles, d.edges_eq, List.map_map, List.map_map]
  exact List.map_congr_left fun e he => d.handleOf_eq he

theorem count_eq (d : Redrawing g g') {h : Handle} (hh : h ∈ g.handles) :
    g'.handles.count (d.handle h) = g.handles.count h := by
  rw [d.handles_eq, List.count, List.count, List.countP_map]
  apply List.countP_congr
  intro k hk
  simp only [Function.comp_apply, beq_iff_eq]
  exact ⟨d.handle_inj hk hh, congrArg d.handle⟩

theorem sharedHandles_eq (d : Redrawing g g') :
    g'.sharedHandles = g.sharedHandles.map d.handle := by
  have hdups : (g.handles.map d.handle).eraseDups = g.handles.eraseDups.map d.handle :=
    eraseDups_map fun h hh h' hh' => d.handle_inj hh hh'
  unfold Graph.sharedHandles
  dsimp only
  rw [d.handles_eq, hdups, List.filter_map]
  congr 1
  apply List.filter_congr
  intro h hh
  rw [Function.comp_apply, ← d.handles_eq, d.count_eq (List.mem_eraseDups.1 hh)]

theorem unsharedEdges_eq (d : Redrawing g g') : g'.unsharedEdges = g.unsharedEdges.map d.edge := by
  unfold Graph.unsharedEdges
  rw [d.edges_eq, List.filter_map]
  congr 1
  apply List.filter_congr
  intro e he
  rw [Function.comp_apply, d.handleOf_eq he, d.count_eq (List.mem_map_of_mem he)]

theorem driversOf_eq (d : Redrawing g g') {h : Handle} (hh : h ∈ g.handles) :
    g'.driversOf (d.handle h) = (g.driversOf h).map d.rename := by
  unfold Graph.driversOf
  rw [d.edges_eq, List.filter_map, List.map_map, List.map_map]
  have hfilter : g.edges.filter ((fun e => decide (g'.handleOf e = d.handle h)) ∘ d.edge) =
      g.edges.filter fun e => decide (g.handleOf e = h) := by
    apply List.filter_congr
    intro e he
    rw [Function.comp_apply, d.handleOf_eq he, decide_eq_decide]
    exact ⟨d.handle_inj (List.mem_map_of_mem he) hh, congrArg d.handle⟩
  rw [hfilter]
  exact List.map_congr_left fun e he => d.edge_source e (List.mem_filter.1 he).1

/-- The drivers of a handle are joined in the same order: that of their ids. -/
theorem mergeLinks_eq (d : Redrawing g g') (i : Nat) {h : Handle} (hh : h ∈ g.handles) :
    g'.mergeLinks i (d.handle h) = g.mergeLinks i h := by
  have hids : ∀ s ∈ g.driversOf h, s ∈ g.ids := by
    intro s hs
    obtain ⟨e, he, rfl⟩ := List.mem_map.1 hs
    exact (g.ends_known e (List.mem_filter.1 he).1).1
  have hsort : (g'.driversOf (d.handle h)).mergeSort (fun a b => decide (a ≤ b)) =
      ((g.driversOf h).mergeSort fun a b => decide (a ≤ b)).map d.rename := by
    rw [d.driversOf_eq hh]
    refine (List.map_mergeSort fun a ha b hb => ?_).symm
    rw [decide_eq_decide]
    exact d.rename_le_iff (hids a ha) (hids b hb)
  unfold Graph.mergeLinks
  rw [hsort, List.zipIdx_map, List.map_map]
  congr 1
  · apply List.map_congr_left
    rintro ⟨s, k⟩ hs
    have hs := List.mem_mergeSort.1 (List.fst_mem_of_mem_zipIdx hs)
    exact congrArg (fun source => (⟨source, i, _⟩ : Link)) (d.index_eq (hids s hs))
  · exact congrArg (fun target => [(⟨i, target, _⟩ : Link)]) (d.index_eq (Graph.node_mem_ids hh))

/-! ## Both drawings are wired alike -/

theorem plain_nodes (d : Redrawing g g') :
    g.normalize.graph.nodes.map Node.plain = g'.normalize.graph.nodes.map Node.plain := by
  rw [Graph.plain_normalize, Graph.plain_normalize, d.nodes_eq, d.sharedHandles_eq, List.map_map,
    List.map_map]
  congr 1
  exact List.map_congr_left fun n hn => (d.node_plain n hn).symm

/-- The handle of a wire only has to be the same where it is looked at. -/
theorem plainLink_eq (d : Redrawing g g') {e : Edge} (he : e ∈ g.edges) :
    g'.normalize.graph.plainLink ((d.edge e).link g'.nodes) =
      g.normalize.graph.plainLink (e.link g.nodes) := by
  obtain ⟨hsource, htarget⟩ := g.ends_known e he
  have hlink : (d.edge e).link g'.nodes =
      { e.link g.nodes with handle := (d.edge e).targetHandle } := by
    change (⟨g'.index (d.edge e).source, g'.index (d.edge e).target, _⟩ : Link) = _
    rw [d.edge_source e he, d.edge_target e he, d.index_eq hsource, d.index_eq htarget]
    rfl
  have hsink : g.normalize.graph.isSinkAt (e.link g.nodes).target = g.isSink e.target :=
    Graph.isSinkAt_normalize htarget
  have hhandle := d.edge_handle e he
  rw [hlink]
  unfold Graph.plainLink
  rw [← isSinkAt_eq_of_plain d.plain_nodes, hsink]
  by_cases hs : g.isSink e.target = true
  · rw [if_pos hs, if_pos hs]
  · rw [if_neg hs, if_neg hs, hhandle (by simpa using hs)]
    rfl

theorem sameWiring (d : Redrawing g g') : SameWiring g.normalize.graph g'.normalize.graph where
  nodes := d.plain_nodes
  links := by
    rw [Graph.links_normalize, Graph.links_normalize, List.map_append, List.map_append,
      d.unsharedEdges_eq, d.sharedHandles_eq, d.length_eq, List.zipIdx_map, List.flatMap_map,
      List.map_map, List.map_map, List.map_map]
    congr 1
    · apply List.map_congr_left
      intro e he
      exact (d.plainLink_eq (Graph.mem_unsharedEdges.1 he).1).symm
    · have hplain : g.normalize.graph.plainLink = g'.normalize.graph.plainLink := by
        funext l
        simp only [Graph.plainLink, isSinkAt_eq_of_plain d.plain_nodes]
      rw [hplain]
      congr 1
      apply List.flatMap_congr
      rintro ⟨h, k⟩ hh
      have hh := Graph.mem_sharedHandles.1 (List.fst_mem_of_mem_zipIdx hh)
      exact (d.mergeLinks_eq _ hh.1).symm

/-- A graph that is drawn again is compiled alike. -/
theorem agrees (d : Redrawing g g') :
    Agree g.normalize.graph g'.normalize.graph (compile g) (compile g') :=
  compile_agrees d.sameWiring

end Redrawing

/-! ## Renaming -/

theorem map_id_rename (nodes : List Node) (r : String → String) :
    (nodes.map fun n => { n with id := r n.id }).map Node.id = (nodes.map Node.id).map r := by
  rw [List.map_map, List.map_map]
  rfl

/-- The graph with other ids for its nodes, in the same order. -/
def Graph.rename (g : Graph) (r : String → String)
    (hr : ∀ a ∈ g.ids, ∀ b ∈ g.ids, a < b → r a < r b) : Graph where
  nodes := g.nodes.map fun n => { n with id := r n.id }
  edges := g.edges.map fun e => { e with source := r e.source, target := r e.target }
  ids_nodup := by
    rw [map_id_rename]
    exact g.ids_nodup.map_on fun a ha b hb h => inj_of_increasing hr ha hb h
  ends_known := by
    intro e' he'
    obtain ⟨e, he, rfl⟩ := List.mem_map.1 he'
    obtain ⟨hsource, htarget⟩ := g.ends_known e he
    rw [map_id_rename]
    exact ⟨List.mem_map_of_mem hsource, List.mem_map_of_mem htarget⟩

def Redrawing.ofRename (g : Graph) (r : String → String)
    (hr : ∀ a ∈ g.ids, ∀ b ∈ g.ids, a < b → r a < r b) : Redrawing g (g.rename r hr) where
  rename := r
  node n := { n with id := r n.id }
  edge e := { e with source := r e.source, target := r e.target }
  nodes_eq := rfl
  edges_eq := rfl
  node_id _ _ := rfl
  node_plain _ _ := rfl
  edge_source _ _ := rfl
  edge_target _ _ := rfl
  edge_handle _ _ _ := rfl
  increasing := hr

/-- What an error says apart from the ids in it. -/
inductive CompileError.Anonymous
  | cycle (unplaced : Nat)
  | operandRange (field : OperandField) (value max : Nat)
  | slotOverflow (count max : Nat)
  deriving DecidableEq, Repr

def CompileError.anonymous : CompileError → Anonymous
  | cycle unplaced => .cycle unplaced.length
  | operandRange _ field value max => .operandRange field value max
  | slotOverflow count max => .slotOverflow count max

theorem Agree.mapError_eq {g g' : Graph} {α : Type} {x x' : Except CompileError α}
    (h : Agree g g' x x') :
    x'.mapError CompileError.anonymous = x.mapError CompileError.anonymous := by
  cases h with
  | cycle places => simp [Except.mapError, CompileError.anonymous]
  | _ => rfl

/-- Ids only tell nodes apart and say in which order wires are joined. Other ids in the same order
give the same program, or the same error up to the ids it names. -/
theorem compile_rename (g : Graph) (r : String → String)
    (hr : ∀ a ∈ g.ids, ∀ b ∈ g.ids, a < b → r a < r b) :
    (compile (g.rename r hr)).mapError CompileError.anonymous =
      (compile g).mapError CompileError.anonymous :=
  (Redrawing.ofRename g r hr).agrees.mapError_eq

/-- Two NOTs with two drivers each, whose merges want the same id. -/
def twins : Graph where
  nodes := [{ id := "x", kind := .input (some 2) }, { id := "y", kind := .input (some 3) },
    { id := "a", kind := .not }, { id := "a.b", kind := .not }]
  edges := [
    { source := "y", target := "a", targetHandle := "b.in" },
    { source := "x", target := "a", targetHandle := "b.in" },
    { source := "x", target := "a.b" }, { source := "y", target := "a.b" }]
  ids_nodup := by decide
  ends_known := by decide

/-- Under this name the second NOT is no longer in the way of the first. -/
def parted (id : String) : String := if id = "a.b" then "b" else id

theorem parted_increasing : ∀ a ∈ twins.ids, ∀ b ∈ twins.ids, a < b → parted a < parted b := by
  decide

/-- The drivers joined in front of `a` and of `a.b`. -/
def twinsJoined : Graph where
  nodes := twins.nodes ++ [
    { id := "a.b.in.or", kind := .gate .or 2, synthetic := true },
    { id := "a.b.in.or1", kind := .gate .or 2, synthetic := true }]
  edges := [
    { source := "x", target := "a.b.in.or", targetHandle := "in0" },
    { source := "y", target := "a.b.in.or", targetHandle := "in1" },
    { source := "a.b.in.or", target := "a", targetHandle := "b.in" },
    { source := "x", target := "a.b.in.or1", targetHandle := "in0" },
    { source := "y", target := "a.b.in.or1", targetHandle := "in1" },
    { source := "a.b.in.or1", target := "a.b" }]
  ids_nodup := by decide
  ends_known := by decide

def twinsSlots : SlotMap where
  slots := [some 0, some 1, some 4, some 5, some 2, some 3]
  count := 6

def twinsProgram : Program where
  bytes := [1, 2, 1, 3, 3, 2, 0, 3, 3, 1, 12, 2, 0, 1, 2, 12, 2, 0, 1, 3, 10, 2, 4, 10, 3, 5]
  slotCount := 6
  bodyOffset := 4

theorem compile_twins : compile twins = .ok twinsProgram := by
  have hjoined : twins.normalize.graph = twinsJoined :=
    Graph.ext_nodes_edges (by cbv) (by cbv)
  have horder : twinsJoined.evaluationOrder = .ok [0, 1, 4, 5, 2, 3] := by cbv
  have hslots : twinsJoined.allocate [0, 1, 4, 5, 2, 3] = .ok twinsSlots := by cbv
  have hlive : twinsJoined.liveness [0, 1, 4, 5, 2, 3] = List.replicate 6 true := by decide
  rw [compile_of_stages hjoined horder hslots, Graph.program, hlive]
  cbv

theorem twins_renamed :
    (∀ a ∈ twins.ids, ∀ b ∈ twins.ids, a < b → parted a < parted b) ∧
    twins.normalize.merges.map Merge.node = ["a.b.in.or", "a.b.in.or1"] ∧
    (twins.rename parted parted_increasing).normalize.merges.map Merge.node =
      ["a.b.in.or", "b.in.or"] ∧
    (compile (twins.rename parted parted_increasing)).mapError CompileError.anonymous =
      .ok twinsProgram := by
  refine ⟨parted_increasing, by cbv, by cbv, ?_⟩
  rw [compile_rename, compile_twins]
  rfl

end LogicWiring
