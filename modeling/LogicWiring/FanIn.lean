-- One driver for each handle. Where several wires meet in one handle, an OR
-- node takes them in the order of their source ids and drives the handle
-- alone. A sink counts as one handle, whatever names its wires give.
import LogicWiring.Graph
import LogicWiring.FanIn.FreshId

namespace LogicWiring

/-- A handle of a node. The handle of a sink has no name. -/
structure Handle where
  node : String
  name : Option String
  deriving DecidableEq, Repr

def Handle.text (h : Handle) : String := h.name.getD "in"

namespace Graph

def handleOf (g : Graph) (e : Edge) : Handle where
  node := e.target
  name := if g.isSink e.target then none else some e.targetHandle

/-- The handle of every edge, in edge order. -/
def handles (g : Graph) : List Handle := g.edges.map g.handleOf

/-- The sources wired to a handle, in edge order. -/
def driversOf (g : Graph) (h : Handle) : List String :=
  (g.edges.filter fun e => g.handleOf e = h).map Edge.source

/-- The handles with several drivers, in the order of their first edges. -/
def sharedHandles (g : Graph) : List Handle :=
  let handles := g.handles
  handles.eraseDups.filter fun h => 2 ≤ handles.count h

/-- The edges that have their handle to themselves. -/
def unsharedEdges (g : Graph) : List Edge :=
  let handles := g.handles
  g.edges.filter fun e => handles.count (g.handleOf e) < 2

end Graph

/-! ## Merges -/

/-- An OR node `node` that joins `sources` and drives `handle` of `target`. -/
structure Merge where
  node : String
  target : String
  handle : String
  sources : List String
  deriving DecidableEq, Repr

namespace Merge

def toNode (m : Merge) : Node where
  id := m.node
  kind := .gate .or (UInt32.ofNat m.sources.length)
  synthetic := true

def inputEdge (m : Merge) (source : String) (k : Nat) : Edge where
  source := source
  target := m.node
  targetHandle := "in" ++ k.repr

/-- The joined wires on the handles `in0`, `in1`, …, then the wire to the target. -/
def edges (m : Merge) : List Edge :=
  m.sources.zipIdx.map (fun (source, k) => m.inputEdge source k) ++
    [{ source := m.node, target := m.target, targetHandle := m.handle }]

theorem edge_ends {m : Merge} {e : Edge} (he : e ∈ m.edges) :
    e.source ∈ m.sources ∧ e.target = m.node ∨ e.source = m.node ∧ e.target = m.target := by
  simp only [edges, List.mem_append, List.mem_map, List.mem_singleton] at he
  rcases he with ⟨⟨s, k⟩, hsk, rfl⟩ | rfl
  · exact .inl ⟨List.fst_mem_of_mem_zipIdx hsk, rfl⟩
  · exact .inr ⟨rfl, rfl⟩

end Merge

namespace Graph

/-- The merge for a handle, under an id that is not taken. -/
def merge (g : Graph) (taken : List String) (h : Handle) : Merge where
  node := freshId (h.node ++ "." ++ h.text ++ ".or") taken
  target := h.node
  handle := h.text
  sources := (g.driversOf h).mergeSort fun a b => decide (a ≤ b)

/-- A merge for each handle, each under an id that no earlier one took. -/
def mergeAll (g : Graph) : List String → List Handle → List Merge
  | _, [] => []
  | taken, h :: rest =>
    let m := g.merge taken h
    m :: g.mergeAll (m.node :: taken) rest

def merges (g : Graph) : List Merge := g.mergeAll g.ids g.sharedHandles

theorem mergeAll_nodes (g : Graph) (taken : List String) (hs : List Handle) :
    ((g.mergeAll taken hs).map Merge.node).Nodup ∧
      ∀ id ∈ (g.mergeAll taken hs).map Merge.node, id ∉ taken := by
  induction hs generalizing taken with
  | nil => simp [mergeAll]
  | cons h rest ih =>
    obtain ⟨hnd, hout⟩ := ih ((g.merge taken h).node :: taken)
    simp only [mergeAll, List.map_cons, List.nodup_cons, List.mem_cons, forall_eq_or_imp]
    refine ⟨⟨fun hm => hout _ hm (by simp), hnd⟩, freshId_not_mem _ _, ?_⟩
    intro id hid ht
    exact hout id hid (by simp [ht])

theorem mem_mergeAll {g : Graph} {taken : List String} {hs : List Handle} {m : Merge}
    (hm : m ∈ g.mergeAll taken hs) : ∃ t, ∃ h ∈ hs, m = g.merge t h := by
  induction hs generalizing taken with
  | nil => simp [mergeAll] at hm
  | cons h rest ih =>
    simp only [mergeAll, List.mem_cons] at hm
    rcases hm with rfl | hm
    · exact ⟨taken, h, by simp, rfl⟩
    · obtain ⟨t, h', hh', he⟩ := ih hm
      exact ⟨t, h', by simp [hh'], he⟩

/-- A merge for a handle that is driven has nodes of the author at its ends, whatever ids are
taken. -/
theorem merge_known {g : Graph} {h : Handle} (hh : h ∈ g.handles) (taken : List String) :
    (g.merge taken h).target ∈ g.ids ∧ ∀ s ∈ (g.merge taken h).sources, s ∈ g.ids := by
  obtain ⟨e, he, rfl⟩ := List.mem_map.1 hh
  refine ⟨(g.ends_known e he).2, fun s hs => ?_⟩
  have hs' : s ∈ g.driversOf (g.handleOf e) := List.mem_mergeSort.1 hs
  obtain ⟨e', he', rfl⟩ := List.mem_map.1 hs'
  exact (g.ends_known e' (List.mem_filter.1 he').1).1

theorem merge_ends {g : Graph} {m : Merge} (hm : m ∈ g.merges) :
    m.target ∈ g.ids ∧ ∀ s ∈ m.sources, s ∈ g.ids := by
  obtain ⟨t, h, hh, rfl⟩ := mem_mergeAll hm
  exact merge_known (List.mem_eraseDups.1 (List.mem_filter.1 hh).1) t

theorem merge_edge_ends {g : Graph} {m : Merge} (hm : m ∈ g.merges) {e : Edge}
    (he : e ∈ m.edges) :
    (e.source ∈ g.ids ∨ e.source = m.node) ∧ (e.target ∈ g.ids ∨ e.target = m.node) := by
  obtain ⟨ht, hs⟩ := merge_ends hm
  rcases Merge.edge_ends he with ⟨hsource, htarget⟩ | ⟨hsource, htarget⟩
  · exact ⟨.inl (hs _ hsource), .inr htarget⟩
  · exact ⟨.inr hsource, .inl (htarget ▸ ht)⟩

end Graph

/-! ## The normalized graph -/

structure Normalized where
  graph : Graph
  merges : List Merge

/-- The nodes of the author, then the merge nodes; the edges that share no handle, then
the edges of the merges. -/
def Graph.normalize (g : Graph) : Normalized where
  merges := g.merges
  graph := {
    nodes := g.nodes ++ g.merges.map Merge.toNode
    edges := g.unsharedEdges ++ g.merges.flatMap Merge.edges
    ids_nodup := by
      have h := g.mergeAll_nodes g.ids g.sharedHandles
      rw [List.map_append, List.map_map]
      refine List.nodup_append.2 ⟨g.ids_nodup, h.1, ?_⟩
      rintro a ha b hb rfl
      exact h.2 a hb ha
    ends_known := by
      intro e he
      rw [List.map_append, List.map_map]
      rcases List.mem_append.1 he with he | he
      · have := g.ends_known e (List.mem_filter.1 he).1
        exact ⟨List.mem_append.2 (.inl this.1), List.mem_append.2 (.inl this.2)⟩
      · obtain ⟨m, hm, hem⟩ := List.mem_flatMap.1 he
        obtain ⟨hs, ht⟩ := Graph.merge_edge_ends hm hem
        have hn : m.node ∈ g.merges.map (Node.id ∘ Merge.toNode) :=
          List.mem_map.2 ⟨m, hm, rfl⟩
        exact ⟨List.mem_append.2 (hs.imp id fun h : e.source = m.node => h ▸ hn),
          List.mem_append.2 (ht.imp id fun h : e.target = m.node => h ▸ hn)⟩ }

/-! ## The check -/

/-- What is known about the handles of a graph. -/
structure FanInCert where
  singleDriver : Bool
  mergesConsistent : Bool
  deriving DecidableEq, Repr

/-- A synthetic node has to be an OR gate that counts its wires right. -/
def Graph.mergeConsistent (g : Graph) (n : Node) : Bool :=
  match n.kind with
  | .gate .or fanIn => fanIn.toNat = g.edges.countP (·.target == n.id)
  | _ => false

/-- What the check says: no two edges share a handle, and the synthetic nodes are as they should
be. -/
def Graph.fanInCert (g : Graph) : FanInCert where
  singleDriver := decide g.handles.Nodup
  mergesConsistent := g.nodes.all fun n => !n.synthetic || g.mergeConsistent n

end LogicWiring
