-- Wires that meet in one handle may be drawn in any order. What a merge takes
-- from its group are the ids of the sources, sorted, so graphs that differ in
-- that order alone have the same normalized graph, and so the same outcome.
-- Main statement: `wire_order_irrelevant`.
import LogicWiring.Compile
import LogicWiring.Proofs.Building
import LogicWiring.Proofs.Merging
import Mathlib

namespace LogicWiring

/-- The groups are for one handle, and as many wires come to it from each source. -/
structure Group.SameSources (group group' : Group) : Prop where
  handle : group.handle = group'.handle
  sources : (group.members.map Edge.source).Perm (group'.members.map Edge.source)

/-- The graphs have the same nodes and the same wires that share no handle, in the same order.
Their shared handles come in the same order too, each with the same sources. -/
structure Graph.WiredAlike (g g' : Graph) : Prop where
  nodes : g.nodes = g'.nodes
  lone : g.loneEdges = g'.loneEdges
  shared : List.Forall₂ Group.SameSources g.sharedGroups g'.sharedGroups

/-- Sorting forgets in which order the ids came: equal ids are the same. -/
theorem mergeSort_ids_eq_of_perm {ids ids' : List String} (h : ids.Perm ids') :
    (ids.mergeSort fun a b => decide (a ≤ b)) = ids'.mergeSort fun a b => decide (a ≤ b) := by
  have hperm : (ids.mergeSort fun a b => decide (a ≤ b)).Perm
      (ids'.mergeSort fun a b => decide (a ≤ b)) :=
    ((List.mergeSort_perm _ _).trans h).trans (List.mergeSort_perm _ _).symm
  apply hperm.eq_of_pairwise
  · intro a b _ _ hab hba
    exact String.le_antisymm hab hba
  · exact Graph.pairwise_mergeSort_ids ids
  · exact Graph.pairwise_mergeSort_ids ids'

namespace Graph

variable {g g' : Graph}

/-- A merge depends on its handle, the taken ids and which sources it joins. -/
theorem merge_eq_of_perm {h : Handle} (hperm : (g.driversOf h).Perm (g'.driversOf h))
    (taken : List String) : g.merge taken h = g'.merge taken h := by
  unfold merge
  rw [mergeSort_ids_eq_of_perm hperm]

theorem mergeAll_eq_of_perm {hs : List Handle}
    (hperm : ∀ h ∈ hs, (g.driversOf h).Perm (g'.driversOf h)) (taken : List String) :
    g.mergeAll taken hs = g'.mergeAll taken hs := by
  induction hs generalizing taken with
  | nil => rfl
  | cons h rest ih =>
    simp only [mergeAll]
    rw [merge_eq_of_perm (hperm h (by simp)), ih fun k hk => hperm k (by simp [hk])]

namespace WiredAlike

theorem sharedHandles_eq (w : WiredAlike g g') : g.sharedHandles = g'.sharedHandles := by
  have hhandles : ∀ g : Graph, g.sharedGroups.map Group.handle = g.sharedHandles := by
    intro g
    rw [sharedGroups_eq, List.map_map]
    exact List.map_id _
  rw [← hhandles g, ← hhandles g']
  apply map_eq_of_forall₂
  exact w.shared.imp fun _ _ h => h.handle

theorem perm_driversOf (w : WiredAlike g g') {h : Handle} (hh : h ∈ g.sharedHandles) :
    (g.driversOf h).Perm (g'.driversOf h) := by
  have hshared := w.shared
  rw [sharedGroups_eq, sharedGroups_eq, ← w.sharedHandles_eq, List.forall₂_map_left_iff,
    List.forall₂_map_right_iff, List.forall₂_same] at hshared
  exact (hshared h hh).sources

theorem merges_eq (w : WiredAlike g g') : g.merges = g'.merges := by
  unfold merges ids
  rw [← w.sharedHandles_eq, ← w.nodes]
  exact mergeAll_eq_of_perm (fun _ hh => w.perm_driversOf hh) _

theorem graph_eq (w : WiredAlike g g') : g.normalize.graph = g'.normalize.graph := by
  apply ext_nodes_edges
  · simp only [normalize]
    rw [w.nodes, w.merges_eq]
  · rw [edges_normalize, edges_normalize, ← loneEdges_eq, ← loneEdges_eq, w.lone, w.merges_eq]

end WiredAlike

end Graph

/-! ## The order makes no difference -/

/-- Graphs that are wired alike have the same merges and the same normalized graph, and compile to
the same program or fail in the same way. -/
theorem wire_order_irrelevant (g g' : Graph) (w : g.WiredAlike g') :
    g.normalize.graph.nodes = g'.normalize.graph.nodes ∧
    g.normalize.graph.edges = g'.normalize.graph.edges ∧
    g.normalize.merges = g'.normalize.merges ∧
    compile g = compile g' := by
  have hgraph := w.graph_eq
  refine ⟨by rw [hgraph], by rw [hgraph], w.merges_eq, ?_⟩
  simp only [compile, hgraph]

/-- Three wires at an output, two of them from one node, and two at a gate. -/
def tangled : Graph where
  nodes := [{ id := "a", kind := .input (some 2) }, { id := "b", kind := .input (some 3) },
    { id := "g", kind := .gate .and 2 }, { id := "o", kind := .output (some 9) }]
  edges := [{ source := "b", target := "o", targetHandle := "top" },
    { source := "b", target := "g", targetHandle := "in0" },
    { source := "a", target := "g", targetHandle := "in1" },
    { source := "a", target := "o" },
    { source := "a", target := "g", targetHandle := "in0" },
    { source := "b", target := "o" }]
  ids_nodup := by decide
  ends_known := by decide

/-- The same wires, drawn one handle after the other. -/
def untangled : Graph where
  nodes := tangled.nodes
  edges := [{ source := "a", target := "o" },
    { source := "b", target := "o" },
    { source := "b", target := "o" },
    { source := "a", target := "g", targetHandle := "in0" },
    { source := "b", target := "g", targetHandle := "in0" },
    { source := "a", target := "g", targetHandle := "in1" }]
  ids_nodup := by decide
  ends_known := by decide

theorem untangled_alike :
    tangled.WiredAlike untangled ∧
    untangled.normalize.merges = [
      { node := "o.in.or", target := "o", handle := "in", sources := ["a", "b", "b"] },
      { node := "g.in0.or", target := "g", handle := "in0", sources := ["a", "b"] }] ∧
    compile tangled = compile untangled := by
  have w : tangled.WiredAlike untangled := by
    refine ⟨rfl, by decide, ?_⟩
    exact .cons ⟨rfl, by decide⟩ (.cons ⟨rfl, by decide⟩ .nil)
  obtain ⟨-, -, hmerges, hcompile⟩ := wire_order_irrelevant tangled untangled w
  refine ⟨w, ?_, hcompile⟩
  rw [← hmerges]
  cbv

end LogicWiring
