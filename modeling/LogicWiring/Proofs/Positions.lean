-- A node can be named by its id or by its position in the node list. In a
-- graph the two agree, so what is said of edges, which go by ids, carries
-- over to links, which go by positions, and back.
import LogicWiring.Graph

namespace LogicWiring

theorem findIdx_id_lt {nodes : List Node} {id : String} (h : id ∈ nodes.map Node.id) :
    nodes.findIdx (·.id == id) < nodes.length := by
  obtain ⟨n, hn, rfl⟩ := List.mem_map.1 h
  exact List.findIdx_lt_length_of_exists ⟨n, hn, by simp⟩

theorem id_getElem_findIdx {nodes : List Node} {id : String} (h : id ∈ nodes.map Node.id) :
    (nodes.get ⟨nodes.findIdx (·.id == id), findIdx_id_lt h⟩).id = id := by
  have hid := List.findIdx_getElem (w := findIdx_id_lt h)
  simpa using hid

theorem zipIdx_increasing {α : Type} (xs : List α) : xs.zipIdx.Pairwise fun a b => a.2 < b.2 := by
  rw [← List.pairwise_map (f := Prod.snd) (R := (· < ·)), List.zipIdx_map_snd]
  exact List.pairwise_lt_range'

namespace Graph

variable {g : Graph}

/-- The position of the node with this id. -/
def index (g : Graph) (id : String) : Nat := g.nodes.findIdx (·.id == id)

theorem index_lt {id : String} (h : id ∈ g.ids) : g.index id < g.nodes.length := findIdx_id_lt h

theorem getElem?_index {id : String} (h : id ∈ g.ids) :
    ∃ n, g.nodes[g.index id]? = some n ∧ n.id = id :=
  ⟨_, List.getElem?_eq_getElem (index_lt h), id_getElem_findIdx h⟩

/-- Ids are unique, so the position of the id of a node is that of the node. -/
theorem index_id {i : Nat} {n : Node} (h : g.nodes[i]? = some n) : g.index n.id = i := by
  have hid : n.id ∈ g.ids := List.mem_map_of_mem (List.mem_of_getElem? h)
  obtain ⟨n', hn', he⟩ := getElem?_index hid
  have hi : (g.nodes.map Node.id)[i]? = some n.id := by simp [h]
  have hj : (g.nodes.map Node.id)[g.index n.id]? = some n.id := by simp [hn', he]
  exact (List.getElem?_inj (by simpa using index_lt hid) g.ids_nodup).1 (hj.trans hi.symm)

theorem index_inj {a b : String} (ha : a ∈ g.ids) (hb : b ∈ g.ids) :
    g.index a = g.index b ↔ a = b := by
  constructor
  · intro h
    obtain ⟨n, hn, rfl⟩ := getElem?_index ha
    obtain ⟨n', hn', rfl⟩ := getElem?_index hb
    rw [h, hn'] at hn
    cases hn
    rfl
  · rintro rfl
    rfl

/-- The kind of the node at a position. -/
def kindAt (g : Graph) (i : Nat) : Option NodeKind := (g.nodes[i]?).map Node.kind

theorem mem_ids_of_getElem? {i : Nat} {n : Node} (h : g.nodes[i]? = some n) : n.id ∈ g.ids :=
  List.mem_map_of_mem (List.mem_of_getElem? h)

theorem kindAt_of_getElem? {i : Nat} {n : Node} (h : g.nodes[i]? = some n) :
    g.kindAt i = some n.kind := by
  rw [kindAt, h, Option.map_some]

theorem isSinkAt_of_getElem? {i : Nat} {n : Node} (h : g.nodes[i]? = some n) :
    g.isSinkAt i = n.kind.isSink := by
  simp [isSinkAt, h]

theorem eq_of_mem_nodes {a b : Node} (ha : a ∈ g.nodes) (hb : b ∈ g.nodes) (h : a.id = b.id) :
    a = b := by
  obtain ⟨i, hi⟩ := List.mem_iff_getElem?.1 ha
  obtain ⟨j, hj⟩ := List.mem_iff_getElem?.1 hb
  have hij : i = j := by rw [← index_id hi, ← index_id hj, h]
  rw [hij, hj] at hi
  cases hi
  rfl

/-- Only one node has an id, so that node decides whether the id is a sink. -/
theorem isSink_of_mem {n : Node} (h : n ∈ g.nodes) : g.isSink n.id = n.kind.isSink := by
  unfold isSink
  rw [Bool.eq_iff_iff, List.any_eq_true]
  constructor
  · rintro ⟨n', hn', hs⟩
    simp only [Bool.and_eq_true, beq_iff_eq] at hs
    rw [← eq_of_mem_nodes hn' h hs.1]
    exact hs.2
  · intro hs
    exact ⟨n, h, by simp [hs]⟩

theorem isSinkAt_index {id : String} (h : id ∈ g.ids) : g.isSinkAt (g.index id) = g.isSink id := by
  obtain ⟨n, hn, rfl⟩ := getElem?_index h
  rw [isSinkAt_of_getElem? hn, isSink_of_mem (List.mem_of_getElem? hn)]

/-! ## Links -/

/-- The links follow from the nodes and the edges. -/
theorem ext_nodes_edges {g g' : Graph} :
    g.nodes = g'.nodes → g.edges = g'.edges → g = g' := by
  obtain ⟨nodes, edges, links, -, -, rfl⟩ := g
  obtain ⟨nodes', edges', links', -, -, rfl⟩ := g'
  rintro ⟨⟩ ⟨⟩
  rfl

theorem mem_links {l : Link} : l ∈ g.links ↔ ∃ e ∈ g.edges, e.link g.nodes = l := by
  rw [g.links_eq, List.mem_map]

theorem link_ends_lt {l : Link} (h : l ∈ g.links) :
    l.source < g.nodes.length ∧ l.target < g.nodes.length := by
  obtain ⟨e, he, rfl⟩ := mem_links.1 h
  exact ⟨index_lt (g.ends_known e he).1, index_lt (g.ends_known e he).2⟩

/-- The edges that end at a node, seen by its position. -/
theorem linksInto_eq {i : Nat} {n : Node} (h : g.nodes[i]? = some n) :
    g.linksInto i = (g.edges.filter (·.target == n.id)).map (Edge.link g.nodes) := by
  unfold linksInto
  rw [g.links_eq, List.filter_map]
  congr 1
  apply List.filter_congr
  intro e he
  have hi : (e.link g.nodes).target = i ↔ e.target = n.id := by
    rw [← index_id h]
    exact index_inj (g.ends_known e he).2 (mem_ids_of_getElem? h)
  rw [Bool.eq_iff_iff]
  simp [hi]

theorem inDegree_eq_countP {i : Nat} {n : Node} (h : g.nodes[i]? = some n) :
    g.inDegree i = g.edges.countP (·.target == n.id) := by
  unfold inDegree
  rw [linksInto_eq h, List.length_map, List.countP_eq_length_filter]

/-- An edge leads from the node at the first position to the one at the second. -/
def Feeds (g : Graph) (i j : Nat) : Prop := ∃ l ∈ g.links, l.source = i ∧ l.target = j

theorem source_lt_of_feeds {i j : Nat} (h : g.Feeds i j) : i < g.nodes.length := by
  obtain ⟨l, hl, rfl, -⟩ := h
  exact (link_ends_lt hl).1

theorem target_lt_of_feeds {i j : Nat} (h : g.Feeds i j) : j < g.nodes.length := by
  obtain ⟨l, hl, -, rfl⟩ := h
  exact (link_ends_lt hl).2

theorem feeds_of_mem_linksInto {l : Link} {i : Nat} (h : l ∈ g.linksInto i) :
    g.Feeds l.source i := by
  obtain ⟨hl, ht⟩ := List.mem_filter.1 h
  exact ⟨l, hl, rfl, of_decide_eq_true ht⟩

theorem successors_eq (g : Graph) (i : Nat) :
    g.successors i = (g.links.filter (·.source = i)).map Link.target := by
  rw [← List.filterMap_eq_map, List.filterMap_filter]
  simp [successors]

theorem mem_successors {i j : Nat} : j ∈ g.successors i ↔ g.Feeds i j := by
  simp [successors_eq, Feeds, and_assoc]

end Graph

end LogicWiring
