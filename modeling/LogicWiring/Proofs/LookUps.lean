-- Looking around in a graph. A position and an id name the same node, a link
-- joins the nodes that its edge names, and the lists of the nodes share out
-- the edges: each edge is in the list of one target and counts once there.
import LogicWiring.Proofs.Positions
import Mathlib

namespace LogicWiring

/-- The parts of a list by a number below a bound, put together again. -/
theorem flatMap_filter_perm {α : Type} (f : α → Nat) (xs : List α) (bound : Nat) :
    ((List.range bound).flatMap fun i => xs.filter (f · = i)).Perm (xs.filter (f · < bound)) := by
  induction bound with
  | zero => simp
  | succ bound ih =>
    have hlow : (xs.filter (f · < bound + 1)).filter (f · < bound) = xs.filter (f · < bound) := by
      rw [List.filter_filter]
      exact List.filter_congr fun x _ => by grind
    have hhigh : (xs.filter (f · < bound + 1)).filter (fun x => !decide (f x < bound)) =
        xs.filter (f · = bound) := by
      rw [List.filter_filter]
      exact List.filter_congr fun x _ => by grind
    have hsplit := List.filter_append_perm (fun x => decide (f x < bound))
      (xs.filter (f · < bound + 1))
    rw [hlow, hhigh] at hsplit
    rw [List.range_succ, List.flatMap_append, List.flatMap_singleton]
    exact (ih.append_right _).trans hsplit

namespace Graph

variable {g : Graph}

/-! ## Positions and ids -/

theorem index_of_ids {i : Nat} {id : String} (h : g.ids[i]? = some id) : g.index id = i := by
  rw [ids, List.getElem?_map, Option.map_eq_some_iff] at h
  obtain ⟨n, hn, rfl⟩ := h
  exact index_id hn

theorem ids_index {id : String} (h : id ∈ g.ids) : g.ids[g.index id]? = some id := by
  obtain ⟨n, hn, hid⟩ := getElem?_index h
  rw [ids, List.getElem?_map, hn, Option.map_some, hid]

theorem position?_eq_some_iff {id : String} {i : Nat} :
    g.position? id = some i ↔ g.ids[i]? = some id := by
  rw [position?, List.findIdx?_eq_some_iff_findIdx_eq]
  constructor
  · rintro ⟨hlt, rfl⟩
    obtain ⟨n, hn, hid⟩ := List.findIdx_lt_length.1 hlt
    exact ids_index (List.mem_map.2 ⟨n, hn, eq_of_beq hid⟩)
  · intro h
    have hindex := index_of_ids h
    exact ⟨hindex ▸ index_lt (List.mem_of_getElem? h), hindex⟩

theorem contains_eq (id : String) : g.contains id = (g.position? id).isSome := by
  rw [contains, position?, List.findIdx?_isSome]

/-! ## Links -/

theorem link_of_edge {k : Nat} {e : Edge} (h : g.edges[k]? = some e) :
    g.links[k]? = some (e.link g.nodes) := by
  rw [g.links_eq, List.getElem?_map, h, Option.map_some]

theorem ids_link {e : Edge} (h : e ∈ g.edges) :
    g.ids[(e.link g.nodes).source]? = some e.source ∧
      g.ids[(e.link g.nodes).target]? = some e.target :=
  (g.ends_known e h).imp ids_index ids_index

/-- An end of an edge is at a position if it is the id there. -/
theorem index_eq_iff {i : Nat} {id id' : String} (hi : g.ids[i]? = some id) (hid : id' ∈ g.ids) :
    g.index id' = i ↔ id' = id := by
  rw [← index_of_ids hi]
  exact index_inj hid (List.mem_of_getElem? hi)

/-! ## The lists of a node -/

theorem incoming_eq (g : Graph) (i : Nat) :
    g.incoming i = (g.links.zipIdx.filter (·.1.target = i)).map Prod.snd := by
  rw [← List.filterMap_eq_map, List.filterMap_filter]
  simp [incoming]

theorem incoming_ascending (g : Graph) (i : Nat) : (g.incoming i).Pairwise (· < ·) := by
  rw [incoming_eq, List.pairwise_map]
  exact (zipIdx_increasing g.links).filter _

theorem mem_incoming {i k : Nat} {id : String} (hi : g.ids[i]? = some id) :
    k ∈ g.incoming i ↔ ∃ e, g.edges[k]? = some e ∧ e.target = id := by
  have hends : ∀ e, g.edges[k]? = some e → ((e.link g.nodes).target = i ↔ e.target = id) :=
    fun e he => index_eq_iff hi (g.ends_known e (List.mem_of_getElem? he)).2
  rw [incoming_eq, g.links_eq]
  simp only [List.mem_map, List.mem_filter, decide_eq_true_eq, Prod.exists, exists_eq_right,
    List.mem_zipIdx_iff_getElem?, List.getElem?_map, Option.map_eq_some_iff]
  constructor
  · rintro ⟨_, ⟨e, he, rfl⟩, ht⟩
    exact ⟨e, he, (hends e he).1 ht⟩
  · rintro ⟨e, he, ht⟩
    exact ⟨_, ⟨e, he, rfl⟩, (hends e he).2 ht⟩

/-- The successors of a node are the targets of the edges that leave it, edge by edge. -/
theorem map_ids_successors {i : Nat} {id : String} (hi : g.ids[i]? = some id) :
    (g.successors i).map (g.ids[·]?) =
      (g.edges.filter (·.source = id)).map fun e => some e.target := by
  have hleave : g.links.filter (·.source = i) =
      (g.edges.filter (·.source = id)).map (Edge.link g.nodes) := by
    rw [g.links_eq, List.filter_map]
    refine congrArg _ (List.filter_congr fun e he => ?_)
    exact decide_eq_decide.2 (index_eq_iff hi (g.ends_known e he).1)
  rw [successors_eq, hleave, List.map_map, List.map_map]
  exact List.map_congr_left fun e he => (ids_link (List.mem_filter.1 he).1).2

/-! ## All edges -/

theorem perm_incoming (g : Graph) :
    ((List.range g.nodes.length).flatMap g.incoming).Perm (List.range g.edges.length) := by
  have hall : g.links.zipIdx.filter (·.1.target < g.nodes.length) = g.links.zipIdx := by
    refine List.filter_eq_self.2 fun p hp => decide_eq_true ?_
    exact (link_ends_lt (List.fst_mem_of_mem_zipIdx hp)).2
  have hperm := (flatMap_filter_perm (fun p => p.1.target) g.links.zipIdx g.nodes.length).map
    Prod.snd
  have hlength : g.links.length = g.edges.length := by rw [g.links_eq, List.length_map]
  rw [hall, List.zipIdx_map_snd, List.map_flatMap, ← List.range_eq_range', hlength] at hperm
  rwa [funext g.incoming_eq]

theorem perm_successors (g : Graph) :
    ((List.range g.nodes.length).flatMap g.successors).Perm (g.links.map Link.target) := by
  have hall : g.links.filter (·.source < g.nodes.length) = g.links :=
    List.filter_eq_self.2 fun l hl => decide_eq_true (link_ends_lt hl).1
  have hperm := (flatMap_filter_perm Link.source g.links g.nodes.length).map Link.target
  rw [hall, List.map_flatMap] at hperm
  rwa [funext g.successors_eq]

theorem inDegree_eq_length (g : Graph) (i : Nat) : g.inDegree i = (g.incoming i).length := by
  rw [inDegree, linksInto, incoming_eq, List.length_map]
  conv_lhs => rw [← List.zipIdx_map_fst 0 g.links]
  rw [List.filter_map, List.length_map]
  rfl

/-- The look-ups of a graph tell the same as its nodes and edges. Two edges between the same nodes
count as two. -/
structure Consistent (g : Graph) : Prop where
  position_iff : ∀ id i, g.position? id = some i ↔ g.ids[i]? = some id
  contains_iff : ∀ id, g.contains id = true ↔ ∃ i, g.position? id = some i
  length_links : g.links.length = g.edges.length
  link_joins : ∀ (k : Nat) (e : Edge), g.edges[k]? = some e → ∃ l : Link, g.links[k]? = some l ∧
    g.ids[l.source]? = some e.source ∧ g.ids[l.target]? = some e.target ∧
    l.handle = e.targetHandle
  incoming_by_target : ∀ i id, g.ids[i]? = some id → ∀ k, k ∈ g.incoming i ↔
    ∃ e, g.edges[k]? = some e ∧ e.target = id
  incoming_ascending : ∀ i, (g.incoming i).Pairwise (· < ·)
  incoming_partition :
    ((List.range g.nodes.length).flatMap g.incoming).Perm (List.range g.edges.length)
  successors_by_source : ∀ i id, g.ids[i]? = some id → (g.successors i).map (g.ids[·]?) =
    (g.edges.filter (·.source = id)).map fun e => some e.target
  total_incoming :
    ((List.range g.nodes.length).map fun i => (g.incoming i).length).sum = g.edges.length
  total_successors :
    ((List.range g.nodes.length).map fun i => (g.successors i).length).sum = g.edges.length
  in_degree : ∀ i, g.inDegree i = (g.incoming i).length

theorem consistent (g : Graph) : g.Consistent where
  position_iff _ _ := position?_eq_some_iff
  contains_iff id := by rw [contains_eq, Option.isSome_iff_exists]
  length_links := by rw [g.links_eq, List.length_map]
  link_joins _ e he :=
    have hends := ids_link (List.mem_of_getElem? he)
    ⟨_, link_of_edge he, hends.1, hends.2, rfl⟩
  incoming_by_target _ _ hi _ := mem_incoming hi
  incoming_ascending := g.incoming_ascending
  incoming_partition := g.perm_incoming
  successors_by_source _ _ hi := map_ids_successors hi
  total_incoming := by
    simpa [List.length_flatMap] using g.perm_incoming.length_eq
  total_successors := by
    simpa [List.length_flatMap, g.links_eq] using g.perm_successors.length_eq
  in_degree := g.inDegree_eq_length

end Graph

end LogicWiring
