-- A graph is rejected for a cycle exactly if the author drew one. A merge node
-- stands only between nodes that are wired anyhow, so normalization opens and
-- closes no path between authored nodes, and a merge is held back exactly if
-- one of its sources is. Main statement: `cycle_rejection_exact`.
import LogicWiring.Proofs.Cycles
import LogicWiring.Proofs.Limits
import LogicWiring.Proofs.Merging
import Mathlib

namespace LogicWiring

open Relation

namespace Graph

variable {g : Graph} {m : Merge} {u v : String}

/-! ## Wires -/

theorem wired_target (hm : m ∈ g.merges) (hu : u ∈ m.sources) : g.Wired u m.target := by
  have hjoins := (handleOf_outputEdge hm).2
  obtain ⟨e, he, rfl⟩ := List.mem_map.1 (hjoins.perm.mem_iff.1 hu)
  obtain ⟨he, hh⟩ := List.mem_filter.1 he
  refine ⟨e, he, rfl, ?_⟩
  rw [hjoins.target]
  exact congrArg Handle.node (of_decide_eq_true hh)

/-- A wire of the author is kept, or a merge takes its place. -/
theorem kept_or_merged (h : g.Wired u v) :
    g.normalize.graph.Wired u v ∨ ∃ m ∈ g.merges, u ∈ m.sources ∧ m.target = v := by
  obtain ⟨e, he, rfl, rfl⟩ := h
  by_cases hlone : g.handles.count (g.handleOf e) < 2
  · exact .inl ⟨e, List.mem_append_left _ (mem_unsharedEdges.2 ⟨he, hlone⟩), rfl, rfl⟩
  · have hshared : g.handleOf e ∈ g.sharedHandles :=
      mem_sharedHandles.2 ⟨List.mem_map_of_mem he, by omega⟩
    obtain ⟨m, hm, hjoins, -⟩ := driver_of_shared hshared
    have hmember : e ∈ (g.groupIn g.edges (g.handleOf e)).members :=
      List.mem_filter.2 ⟨he, by simp⟩
    exact .inr ⟨m, hm, hjoins.perm.mem_iff.2 (List.mem_map_of_mem hmember), hjoins.target⟩

/-- A wire of the normalized graph is one of the author, or one into or out of a merge. -/
theorem wired_normalize_iff : g.normalize.graph.Wired u v ↔
    (∃ e ∈ g.unsharedEdges, e.source = u ∧ e.target = v) ∨
    ∃ m ∈ g.merges, u ∈ m.sources ∧ v = m.node ∨ u = m.node ∧ v = m.target := by
  have hmerge : ∀ m : Merge, (∃ e ∈ m.edges, e.source = u ∧ e.target = v) ↔
      u ∈ m.sources ∧ v = m.node ∨ u = m.node ∧ v = m.target := by
    intro m
    rw [← m.source_inputEdges, m.edges_eq]
    constructor
    · rintro ⟨e, he, rfl, rfl⟩
      rcases List.mem_append.1 he with he | he
      · refine .inl ⟨List.mem_map_of_mem he, ?_⟩
        obtain ⟨p, -, rfl⟩ := List.mem_map.1 he
        rfl
      · cases List.mem_singleton.1 he
        exact .inr ⟨rfl, rfl⟩
    · rintro (⟨hu, rfl⟩ | ⟨rfl, rfl⟩)
      · obtain ⟨e, he, rfl⟩ := List.mem_map.1 hu
        refine ⟨e, List.mem_append_left _ he, rfl, ?_⟩
        obtain ⟨p, -, rfl⟩ := List.mem_map.1 he
        rfl
      · exact ⟨m.outputEdge, List.mem_append_right _ (by simp), rfl, rfl⟩
  unfold Wired
  rw [edges_normalize]
  simp only [List.mem_append, List.mem_flatMap, or_and_right, exists_or, ← hmerge]
  constructor
  · rintro (h | ⟨e, ⟨m, hm, he⟩, hends⟩)
    · exact .inl h
    · exact .inr ⟨m, hm, e, he, hends⟩
  · rintro (h | ⟨m, hm, e, he, hends⟩)
    · exact .inl h
    · exact .inr ⟨e, ⟨m, hm, he⟩, hends⟩

theorem mem_merges_of_mem_ids (hu : u ∈ g.normalize.graph.ids) (hout : u ∉ g.ids) :
    ∃ m ∈ g.merges, u = m.node := by
  obtain ⟨n, hn, rfl⟩ := List.mem_map.1 hu
  rcases List.mem_append.1 hn with hn | hn
  · exact absurd (List.mem_map_of_mem hn) hout
  · obtain ⟨m, hm, rfl⟩ := List.mem_map.1 hn
    exact ⟨m, hm, rfl⟩

theorem wired_merge_iff (hm : m ∈ g.merges) : g.normalize.graph.Wired u m.node ↔ u ∈ m.sources := by
  rw [wired_normalize_iff]
  constructor
  · rintro (⟨e, he, -, ht⟩ | ⟨m', hm', ⟨hu, hn⟩ | ⟨-, ht⟩⟩)
    · exact absurd (ht ▸ (g.ends_known e (mem_unsharedEdges.1 he).1).2) (node_not_mem_ids hm)
    · rwa [node_inj hm hm' hn]
    · exact absurd (ht ▸ (merge_ends hm').1) (node_not_mem_ids hm)
  · intro hu
    exact .inr ⟨m, hm, .inl ⟨hu, rfl⟩⟩

theorem merge_wired_iff (hm : m ∈ g.merges) : g.normalize.graph.Wired m.node v ↔ v = m.target := by
  rw [wired_normalize_iff]
  constructor
  · rintro (⟨e, he, hs, -⟩ | ⟨m', hm', ⟨hu, -⟩ | ⟨hn, rfl⟩⟩)
    · exact absurd (hs ▸ (g.ends_known e (mem_unsharedEdges.1 he).1).1) (node_not_mem_ids hm)
    · exact absurd ((merge_ends hm').2 _ hu) (node_not_mem_ids hm)
    · rw [node_inj hm hm' hn]
  · intro hv
    exact .inr ⟨m, hm, .inr ⟨rfl, hv⟩⟩

/-! ## Paths -/

/-- What a path of the normalized graph that starts at the authored node `u` says of the
node it has come to. -/
structure Followed (g : Graph) (u w : String) : Prop where
  authored : w ∈ g.ids → ReflTransGen g.Wired u w
  merge : ∀ m ∈ g.merges, w = m.node → ∃ s ∈ m.sources, ReflTransGen g.Wired u s

/-- One more wire of the normalized graph, seen in the wiring of the author. -/
theorem Followed.step (h : g.Followed u v) {w : String} (hw : g.normalize.graph.Wired v w) :
    (w ∈ g.ids → g.Reaches u w) ∧
    ∀ m ∈ g.merges, w = m.node → ∃ s ∈ m.sources, ReflTransGen g.Wired u s := by
  constructor
  · intro hid
    rcases wired_normalize_iff.1 hw with ⟨e, he, rfl, rfl⟩ | ⟨m, hm, ⟨-, rfl⟩ | ⟨rfl, rfl⟩⟩
    · have he := (mem_unsharedEdges.1 he).1
      exact TransGen.tail' (h.authored (g.ends_known e he).1) ⟨e, he, rfl, rfl⟩
    · exact absurd hid (node_not_mem_ids hm)
    · obtain ⟨s, hs, hus⟩ := h.merge m hm rfl
      exact TransGen.tail' hus (wired_target hm hs)
  · rintro m hm rfl
    have hv := (wired_merge_iff hm).1 hw
    exact ⟨v, hv, h.authored ((merge_ends hm).2 v hv)⟩

theorem followed_of_path (hu : u ∈ g.ids) (h : ReflTransGen g.normalize.graph.Wired u v) :
    g.Followed u v := by
  induction h with
  | refl =>
    refine ⟨fun _ => .refl, ?_⟩
    rintro m hm rfl
    exact absurd hu (node_not_mem_ids hm)
  | tail _ hw ih =>
    obtain ⟨hreach, hmerge⟩ := ih.step hw
    exact ⟨fun hid => (hreach hid).to_reflTransGen, hmerge⟩

theorem reaches_normalize_iff (hu : u ∈ g.ids) (hv : v ∈ g.ids) :
    g.normalize.graph.Reaches u v ↔ g.Reaches u v := by
  constructor
  · intro h
    obtain ⟨w, huw, hwv⟩ := TransGen.tail'_iff.1 h
    exact ((followed_of_path hu huw).step hwv).1 hv
  · -- each wire is there still, or leads through its merge
    apply TransGen.closed
    intro a b hab
    rcases kept_or_merged hab with h | ⟨m, hm, ha, rfl⟩
    · exact .single h
    · exact TransGen.head ((wired_merge_iff hm).2 ha) (.single ((merge_wired_iff hm).2 rfl))

/-! ## Cycles -/

/-- A cycle of the normalized graph goes through an authored node. -/
theorem authored_on_cycle (h : g.normalize.graph.Reaches u u) :
    ∃ a ∈ g.ids, g.normalize.graph.Reaches a a ∧ ReflTransGen g.normalize.graph.Wired a u := by
  by_cases hu : u ∈ g.ids
  · exact ⟨u, hu, h, .refl⟩
  · obtain ⟨m, hm, rfl⟩ := mem_merges_of_mem_ids (mem_ids_of_reaches h).1 hu
    obtain ⟨a, hua, hau⟩ := TransGen.head'_iff.1 h
    cases (merge_wired_iff hm).1 hua
    exact ⟨m.target, (merge_ends hm).1, TransGen.tail' hau hua, hau⟩

theorem cyclic_normalize_iff : g.normalize.graph.Cyclic ↔ g.Cyclic := by
  constructor
  · rintro ⟨u, hu⟩
    obtain ⟨a, hid, ha, -⟩ := authored_on_cycle hu
    exact ⟨a, (reaches_normalize_iff hid hid).1 ha⟩
  · rintro ⟨u, hu⟩
    have hid := (mem_ids_of_reaches hu).1
    exact ⟨u, (reaches_normalize_iff hid hid).2 hu⟩

theorem exists_order_normalize_iff :
    (∃ order, g.normalize.graph.evaluationOrder = .ok order) ↔ ¬ g.Cyclic := by
  rw [exists_order_iff, cyclic_normalize_iff]

theorem heldBack_normalize_iff (hv : v ∈ g.ids) :
    g.normalize.graph.HeldBack v ↔ g.HeldBack v := by
  have hpath : ∀ a ∈ g.ids,
      ReflTransGen g.normalize.graph.Wired a v ↔ ReflTransGen g.Wired a v := by
    intro a ha
    rw [reflTransGen_iff_eq_or_transGen, reflTransGen_iff_eq_or_transGen]
    exact or_congr_right (reaches_normalize_iff ha hv)
  constructor
  · rintro ⟨u, hu, huv⟩
    obtain ⟨a, hid, ha, hau⟩ := authored_on_cycle hu
    exact ⟨a, (reaches_normalize_iff hid hid).1 ha, (hpath a hid).1 (hau.trans huv)⟩
  · rintro ⟨u, hu, huv⟩
    have hid := (mem_ids_of_reaches hu).1
    exact ⟨u, (reaches_normalize_iff hid hid).2 hu, (hpath u hid).2 huv⟩

theorem heldBack_merge_iff (hm : m ∈ g.merges) :
    g.normalize.graph.HeldBack m.node ↔ ∃ s ∈ m.sources, g.HeldBack s := by
  unfold HeldBack
  rw [afterCycle_iff]
  constructor
  · rintro ⟨s, hw, hs⟩
    have hmem := (wired_merge_iff hm).1 hw
    exact ⟨s, hmem, (heldBack_normalize_iff ((merge_ends hm).2 s hmem)).1 hs⟩
  · rintro ⟨s, hmem, hs⟩
    exact ⟨s, (wired_merge_iff hm).2 hmem,
      (heldBack_normalize_iff ((merge_ends hm).2 s hmem)).2 hs⟩

open Classical in
theorem filter_heldBack_normalize (g : Graph) :
    g.normalize.graph.ids.filter (fun id => g.normalize.graph.HeldBack id) =
      g.ids.filter (fun id => g.HeldBack id) ++
        (g.merges.filter fun m => ∃ s ∈ m.sources, g.HeldBack s).map Merge.node := by
  have hids : g.normalize.graph.ids = g.ids ++ g.merges.map Merge.node := by
    simp [ids, normalize, Merge.toNode, Function.comp_def]
  rw [hids, List.filter_append, List.filter_map]
  congr 1
  · apply List.filter_congr
    intro id hid
    rw [decide_eq_decide]
    exact heldBack_normalize_iff hid
  · congr 1
    apply List.filter_congr
    intro m hm
    rw [Function.comp_apply, decide_eq_decide]
    exact heldBack_merge_iff hm

end Graph

/-! ## Rejection -/

open Classical in
/-- Normalization keeps which authored nodes reach which. A graph is rejected for a cycle
exactly if the author drew one, and the error names the authored nodes that lie on a cycle
or come after one, at least one of them, then the merges that join one of these. -/
theorem cycle_rejection_exact (g : Graph) :
    (∀ u ∈ g.ids, ∀ v ∈ g.ids, g.normalize.graph.Reaches u v ↔ g.Reaches u v) ∧
    (∀ unplaced, compile g = .error (.cycle unplaced) ↔ g.Cyclic ∧ unplaced =
      g.ids.filter (fun id => g.HeldBack id) ++
        (g.normalize.merges.filter fun m => ∃ s ∈ m.sources, g.HeldBack s).map Merge.node) ∧
    (g.Cyclic → ∃ id ∈ g.ids, g.HeldBack id) := by
  refine ⟨fun u hu v hv => Graph.reaches_normalize_iff hu hv, fun unplaced => ?_, ?_⟩
  · rw [compile_eq_cycle_iff, Graph.evaluationOrder_eq_cycle_iff, Graph.cyclic_normalize_iff,
      Graph.filter_heldBack_normalize]
    rfl
  · rintro ⟨u, hu⟩
    exact ⟨u, (Graph.mem_ids_of_reaches hu).1, Graph.heldBack_of_reaches_self hu⟩

/-- A gate and an inverter in a ring; one wire of the ring shares its handle with an input. -/
def feedback : Graph where
  nodes := [{ id := "a", kind := .input (some 2) }, { id := "x", kind := .gate .and 2 },
    { id := "y", kind := .not }, { id := "o", kind := .output (some 8) }]
  edges := [{ source := "y", target := "x", targetHandle := "in0" }, { source := "x", target := "y" },
    { source := "a", target := "x", targetHandle := "in0" }, { source := "y", target := "o" }]
  ids_nodup := by decide
  ends_known := by decide

open Classical in
theorem feedback_rejected :
    compile feedback = .error (.cycle ["x", "y", "o", "x.in0.or"]) ∧ feedback.Cyclic ∧
    ["x", "y", "o", "x.in0.or"] = feedback.ids.filter (fun id => feedback.HeldBack id) ++
      (feedback.normalize.merges.filter fun m => ∃ s ∈ m.sources, feedback.HeldBack s).map
        Merge.node := by
  have hcompile : compile feedback = .error (.cycle ["x", "y", "o", "x.in0.or"]) := by cbv
  exact ⟨hcompile, ((cycle_rejection_exact feedback).2.1 _).1 hcompile⟩

end LogicWiring
