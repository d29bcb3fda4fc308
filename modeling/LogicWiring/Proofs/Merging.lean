-- What a merge puts in the place of a shared handle. Each merge joins one
-- group of edges, every edge of the normalized graph ends where it did or at
-- a merge, and the one driver of a handle stands for the OR of its drivers.
import LogicWiring.Proofs.Grouping
import LogicWiring.Proofs.Positions
import Mathlib.Data.List.Forall2
import Mathlib.Data.List.Nodup

namespace LogicWiring

/-- One member alone makes a list, when the others add nothing. -/
theorem flatMap_eq_of_mem {α β : Type} {l : List α} {f : α → List β} {a : α} (hnd : l.Nodup)
    (ha : a ∈ l) (hother : ∀ b ∈ l, b ≠ a → f b = []) : l.flatMap f = f a := by
  induction l with
  | nil => simp at ha
  | cons b rest ih =>
    obtain ⟨hb, hnd⟩ := List.nodup_cons.1 hnd
    rw [List.flatMap_cons]
    rcases List.mem_cons.1 ha with rfl | ha
    · have hrest : rest.flatMap f = [] := by
        rw [List.flatMap_eq_nil_iff]
        intro c hc
        exact hother c (List.mem_cons_of_mem _ hc) fun he => hb (he ▸ hc)
      rw [hrest, List.append_nil]
    · have hne : b ≠ a := fun he => hb (he ▸ ha)
      rw [hother b (by simp) hne, List.nil_append]
      exact ih hnd ha fun c hc => hother c (List.mem_cons_of_mem _ hc)

/-! ## Merges and groups -/

/-- The joined wires. -/
def Merge.inputEdges (m : Merge) : List Edge :=
  m.sources.zipIdx.map fun (source, k) => m.inputEdge source k

/-- The wire from the merge node to the target. -/
def Merge.outputEdge (m : Merge) : Edge where
  source := m.node
  target := m.target
  targetHandle := m.handle

theorem Merge.edges_eq (m : Merge) : m.edges = m.inputEdges ++ [m.outputEdge] := rfl

theorem Merge.source_inputEdges (m : Merge) : m.inputEdges.map Edge.source = m.sources := by
  unfold inputEdges
  rw [List.map_map]
  exact List.zipIdx_map_fst 0 m.sources

/-- The merge takes the sources of all members of the group, by their ids and equal ids in
edge order, and drives the handle of the group. -/
structure Merge.Joins (m : Merge) (group : Group) : Prop where
  target : m.target = group.handle.node
  handle : m.handle = group.handle.name.getD "in"
  sources : m.sources =
    (group.members.mergeSort fun e e' => decide (e.source ≤ e'.source)).map Edge.source
  perm : m.sources.Perm (group.members.map Edge.source)
  sorted : m.sources.Pairwise (· ≤ ·)

namespace Graph

variable {g : Graph}

/-- The groups of two and more edges, in the order of their first edges. -/
def sharedGroups (g : Graph) : List Group :=
  g.groups.filter fun group => 2 ≤ group.members.length

/-- The edges that make up a group alone, in edge order. -/
def loneEdges (g : Graph) : List Edge :=
  g.edges.filter fun e => ⟨g.handleOf e, [e]⟩ ∈ g.groups

theorem pairwise_mergeSort_ids (ids : List String) :
    (ids.mergeSort fun a b => decide (a ≤ b)).Pairwise (· ≤ ·) := by
  have h := @List.pairwise_mergeSort String (fun a b => decide (a ≤ b))
    (fun a b c hab hbc => by
      simp only [decide_eq_true_eq] at hab hbc ⊢
      exact String.le_trans hab hbc)
    (fun a b => by simpa using String.le_total a b) ids
  exact h.imp of_decide_eq_true

theorem merge_joins (g : Graph) (taken : List String) (h : Handle) :
    (g.merge taken h).Joins (g.groupIn g.edges h) where
  target := rfl
  handle := rfl
  sources := by
    rw [List.map_mergeSort (s := fun a b => decide (a ≤ b)) fun _ _ _ _ => rfl]
    rfl
  perm := List.mergeSort_perm _ _
  sorted := pairwise_mergeSort_ids _

theorem mergeAll_joins (g : Graph) (taken : List String) (hs : List Handle) :
    List.Forall₂ Merge.Joins (g.mergeAll taken hs) (hs.map (g.groupIn g.edges)) := by
  induction hs generalizing taken with
  | nil => exact .nil
  | cons h rest ih => exact .cons (g.merge_joins taken h) (ih _)

theorem sharedGroups_eq (g : Graph) :
    g.sharedGroups = g.sharedHandles.map (g.groupIn g.edges) := by
  unfold sharedGroups sharedHandles
  rw [groups_eq, List.filter_map]
  congr 2
  funext h
  simp [length_members]

/-- There is one merge for each shared group, in the same order. -/
theorem merges_join (g : Graph) : List.Forall₂ Merge.Joins g.merges g.sharedGroups := by
  rw [sharedGroups_eq]
  exact g.mergeAll_joins _ _

theorem mem_handles {h : Handle} : h ∈ g.handles ↔ ∃ e ∈ g.edges, g.handleOf e = h := List.mem_map

theorem mem_sharedHandles {h : Handle} :
    h ∈ g.sharedHandles ↔ h ∈ g.handles ∧ 2 ≤ g.handles.count h := by
  unfold sharedHandles
  rw [List.mem_filter, List.mem_eraseDups, decide_eq_true_eq]

theorem mem_unsharedEdges {e : Edge} :
    e ∈ g.unsharedEdges ↔ e ∈ g.edges ∧ g.handles.count (g.handleOf e) < 2 := by
  unfold unsharedEdges
  rw [List.mem_filter, decide_eq_true_eq]

theorem node_mem_ids {h : Handle} (hh : h ∈ g.handles) : h.node ∈ g.ids := by
  obtain ⟨e, he, rfl⟩ := mem_handles.1 hh
  exact (g.ends_known e he).2

theorem node_not_mem_ids {m : Merge} (hm : m ∈ g.merges) : m.node ∉ g.ids :=
  (g.mergeAll_nodes g.ids g.sharedHandles).2 _ (List.mem_map_of_mem hm)

theorem node_inj {m m' : Merge} (hm : m ∈ g.merges) (hm' : m' ∈ g.merges)
    (h : m.node = m'.node) : m = m' :=
  List.inj_on_of_nodup_map (g.mergeAll_nodes g.ids g.sharedHandles).1 hm hm' h

theorem merges_nodup (g : Graph) : g.merges.Nodup :=
  (g.mergeAll_nodes g.ids g.sharedHandles).1.of_map

/-- The handle of a wire to the target of a handle, under its text, is that handle: a sink
has only one. -/
theorem handleOf_text {h : Handle} (hh : h ∈ g.handles) (source : String) :
    g.handleOf { source, target := h.node, targetHandle := h.text } = h := by
  obtain ⟨e, -, rfl⟩ := mem_handles.1 hh
  unfold handleOf Handle.text
  split <;> simp_all

theorem handleOf_outputEdge {m : Merge} (hm : m ∈ g.merges) :
    g.handleOf m.outputEdge ∈ g.sharedHandles ∧
      m.Joins (g.groupIn g.edges (g.handleOf m.outputEdge)) := by
  obtain ⟨taken, h, hh, rfl⟩ := mem_mergeAll hm
  have he : g.handleOf (g.merge taken h).outputEdge = h :=
    handleOf_text (mem_sharedHandles.1 hh).1 _
  rw [he]
  exact ⟨hh, g.merge_joins taken h⟩

theorem handleOf_mergeAll {taken : List String} {hs : List Handle}
    (hmem : ∀ h ∈ hs, h ∈ g.handles) :
    (g.mergeAll taken hs).map (fun m => g.handleOf m.outputEdge) = hs := by
  induction hs generalizing taken with
  | nil => simp [mergeAll]
  | cons h rest ih =>
    rw [mergeAll, List.map_cons, ih fun k hk => hmem k (List.mem_cons_of_mem _ hk)]
    congr 1
    exact handleOf_text (hmem h (by simp)) _

/-- The merges drive the shared handles, each its own. -/
theorem handleOf_outputEdges (g : Graph) :
    g.merges.map (fun m => g.handleOf m.outputEdge) = g.sharedHandles :=
  handleOf_mergeAll fun _ hh => (mem_sharedHandles.1 hh).1

/-! ## The handles of the normalized graph -/

theorem edges_normalize (g : Graph) :
    g.normalize.graph.edges = g.unsharedEdges ++ g.merges.flatMap Merge.edges := rfl

/-- The nodes of the author keep their places. -/
theorem getElem?_normalize {i : Nat} {node : Node} (h : g.nodes[i]? = some node) :
    g.normalize.graph.nodes[i]? = some node := by
  rw [← h]
  exact List.getElem?_append_left (List.getElem?_eq_some_iff.1 h).1

/-- A merge node is no sink, so the sinks stay the same. -/
theorem isSink_normalize (g : Graph) (id : String) : g.normalize.graph.isSink id = g.isSink id := by
  simp [isSink, normalize, Merge.toNode, NodeKind.isSink]

theorem handleOf_normalize (g : Graph) (e : Edge) :
    g.normalize.graph.handleOf e = g.handleOf e := by
  simp [handleOf, isSink_normalize]

theorem isSink_of_not_mem {id : String} (h : id ∉ g.ids) : g.isSink id = false := by
  rw [Bool.eq_false_iff]
  intro hs
  obtain ⟨n, hn, he⟩ := List.any_eq_true.1 hs
  simp only [Bool.and_eq_true, beq_iff_eq] at he
  exact h (List.mem_map.2 ⟨n, hn, he.1⟩)

theorem handleOf_inputEdge {m : Merge} (hm : m ∈ g.merges) (source : String) (k : Nat) :
    g.handleOf (m.inputEdge source k) = ⟨m.node, some ("in" ++ k.repr)⟩ := by
  simp [handleOf, Merge.inputEdge, isSink_of_not_mem (node_not_mem_ids hm)]

/-- The edges into a merge node are those from the sources it joins. -/
theorem edges_into_merge {m : Merge} (hm : m ∈ g.merges) :
    g.normalize.graph.edges.filter (·.target == m.node) = m.inputEdges := by
  have hout : m.node ∉ g.ids := node_not_mem_ids hm
  have hlone : g.unsharedEdges.filter (·.target == m.node) = [] := by
    rw [List.filter_eq_nil_iff]
    intro e he ht
    exact hout (beq_iff_eq.1 ht ▸ (g.ends_known e (mem_unsharedEdges.1 he).1).2)
  have hown : ∀ m' ∈ g.merges, m'.edges.filter (·.target == m.node) =
      if m' = m then m.inputEdges else [] := by
    intro m' hm'
    have hlast : m'.target ≠ m.node := fun h => hout (h ▸ (merge_ends hm').1)
    by_cases he : m' = m
    · subst he
      simp [Merge.edges, Merge.inputEdges, Merge.inputEdge, List.filter_map, Function.comp_def,
        hlast]
    · have hne : m'.node ≠ m.node := fun h => he (node_inj hm' hm h)
      simp [Merge.edges, Merge.inputEdge, List.filter_map, Function.comp_def, hlast, he, hne]
  rw [edges_normalize, List.filter_append, hlone, List.nil_append, List.filter_flatMap,
    flatMap_eq_of_mem g.merges_nodup hm]
  · rw [hown m hm, if_pos rfl]
  · intro m' hm' hne
    rw [hown m' hm', if_neg hne]

/-- Of the edges of a merge only the last drives a handle of the author. -/
theorem filter_edges_merge {m : Merge} {h : Handle} (hm : m ∈ g.merges) (hh : h.node ∈ g.ids) :
    m.edges.filter (fun e => g.handleOf e = h) =
      if g.handleOf m.outputEdge = h then [m.outputEdge] else [] := by
  have hin : m.inputEdges.filter (fun e => g.handleOf e = h) = [] := by
    rw [List.filter_eq_nil_iff]
    intro e he heq
    obtain ⟨⟨source, k⟩, -, rfl⟩ := List.mem_map.1 he
    rw [decide_eq_true_eq, handleOf_inputEdge hm] at heq
    exact node_not_mem_ids hm (by rw [← heq] at hh; exact hh)
  rw [Merge.edges_eq, List.filter_append, hin, List.nil_append, List.filter_singleton]
  by_cases he : g.handleOf m.outputEdge = h
  · rw [if_pos he, decide_eq_true he]
    rfl
  · rw [if_neg he, decide_eq_false he]
    rfl

theorem sources_of_merges {ms : List Merge} {h : Handle} (hms : ∀ m ∈ ms, m ∈ g.merges)
    (hh : h.node ∈ g.ids) :
    ((ms.flatMap Merge.edges).filter fun e => g.handleOf e = h).map Edge.source =
      (ms.filter fun m => g.handleOf m.outputEdge = h).map Merge.node := by
  induction ms with
  | nil => rfl
  | cons m rest ih =>
    rw [List.flatMap_cons, List.filter_append, List.map_append,
      filter_edges_merge (hms m (by simp)) hh, ih fun m' hm' => hms m' (List.mem_cons_of_mem _ hm')]
    by_cases he : g.handleOf m.outputEdge = h
    · rw [if_pos he, List.filter_cons_of_pos (by simpa using he)]
      rfl
    · rw [if_neg he, List.filter_cons_of_neg (by simpa using he)]
      rfl

/-- A handle of the author is driven by the edge that has it alone or by its merge. -/
theorem driversOf_normalize {h : Handle} (hh : h.node ∈ g.ids) :
    g.normalize.graph.driversOf h =
      (g.unsharedEdges.filter fun e => g.handleOf e = h).map Edge.source ++
        (g.merges.filter fun m => g.handleOf m.outputEdge = h).map Merge.node := by
  unfold driversOf
  simp only [handleOf_normalize]
  rw [edges_normalize, List.filter_append, List.map_append, sources_of_merges (fun _ hm => hm) hh]

/-! ## One driver for each handle -/

theorem filter_eq_singleton {α β : Type} [DecidableEq β] {l : List α} {f : α → β} {b : β}
    (h : (l.map f).count b = 1) : ∃ a ∈ l, f a = b ∧ l.filter (fun x => f x = b) = [a] := by
  have hlen : (l.filter fun x => f x = b).length = 1 := by
    rw [← h, List.count, List.countP_map, List.countP_eq_length_filter]
    congr 1
  obtain ⟨a, ha⟩ := List.length_eq_one_iff.1 hlen
  have hmem : a ∈ l.filter fun x => f x = b := ha ▸ List.mem_singleton_self a
  obtain ⟨hal, hab⟩ := List.mem_filter.1 hmem
  exact ⟨a, hal, of_decide_eq_true hab, ha⟩

theorem sharedHandles_nodup (g : Graph) : g.sharedHandles.Nodup := (nodup_eraseDups _).filter _

theorem driver_of_lone {h : Handle} (hh : h ∈ g.handles) (hlone : g.handles.count h < 2) :
    ∃ e, (g.groupIn g.edges h).members = [e] ∧ g.normalize.graph.driversOf h = [e.source] := by
  have hcount : g.handles.count h = 1 := by
    have := List.count_pos_iff.2 hh
    omega
  obtain ⟨e, -, -, he⟩ := filter_eq_singleton hcount
  have hmerges : (g.merges.filter fun m => g.handleOf m.outputEdge = h) = [] := by
    rw [List.filter_eq_nil_iff]
    intro m hm hmh
    have hs := (mem_sharedHandles.1 (handleOf_outputEdge hm).1).2
    rw [of_decide_eq_true hmh] at hs
    omega
  have hedges : (g.unsharedEdges.filter fun e => g.handleOf e = h) = [e] := by
    rw [← he, unsharedEdges, List.filter_filter]
    apply List.filter_congr
    intro x _
    by_cases hx : g.handleOf x = h <;> simp [hx, hlone]
  refine ⟨e, he, ?_⟩
  rw [driversOf_normalize (node_mem_ids hh), hmerges, hedges]
  rfl

theorem driver_of_shared {h : Handle} (hh : h ∈ g.sharedHandles) :
    ∃ m ∈ g.merges, m.Joins (g.groupIn g.edges h) ∧ g.normalize.graph.driversOf h = [m.node] := by
  obtain ⟨hmem, hcount⟩ := mem_sharedHandles.1 hh
  have hone : (g.merges.map fun m => g.handleOf m.outputEdge).count h = 1 := by
    rw [handleOf_outputEdges]
    exact List.count_eq_one_of_mem g.sharedHandles_nodup hh
  obtain ⟨m, hm, he, hfilter⟩ := filter_eq_singleton hone
  have hedges : (g.unsharedEdges.filter fun e => g.handleOf e = h) = [] := by
    rw [List.filter_eq_nil_iff]
    intro e hu heh
    have hlt := (mem_unsharedEdges.1 hu).2
    rw [of_decide_eq_true heh] at hlt
    omega
  refine ⟨m, hm, he ▸ (handleOf_outputEdge hm).2, ?_⟩
  rw [driversOf_normalize (node_mem_ids hmem), hedges, hfilter]
  rfl

/-! ## The meaning of the wiring -/

/-- The authored nodes have the values of `values`; a merge node is the OR of the sources
of the edges that end at it. -/
def mergedValue (g : Graph) (values : String → Bool) (id : String) : Bool :=
  if id ∈ g.ids then values id
  else g.normalize.graph.edges.any fun e => e.target == id && values e.source

theorem mergedValue_of_mem {id : String} (h : id ∈ g.ids) (values : String → Bool) :
    g.mergedValue values id = values id := if_pos h

theorem mergedValue_merge {m : Merge} (hm : m ∈ g.merges) (values : String → Bool) :
    g.mergedValue values m.node = m.sources.any values := by
  have hany : g.mergedValue values m.node =
      (g.normalize.graph.edges.filter (·.target == m.node)).any fun e => values e.source := by
    unfold mergedValue
    rw [if_neg (node_not_mem_ids hm), List.any_filter]
  rw [hany, edges_into_merge hm]
  conv_rhs => rw [← m.source_inputEdges, List.any_map]
  rfl

/-! ## Lone and shared edges -/

theorem loneEdges_eq (g : Graph) : g.loneEdges = g.unsharedEdges := by
  apply List.filter_congr
  intro e he
  have hh : g.handleOf e ∈ g.handles := List.mem_map_of_mem he
  have hlen := g.length_members (g.handleOf e)
  rw [decide_eq_decide, mem_groups]
  constructor
  · rintro ⟨-, hgroup⟩
    rw [← hlen, ← hgroup]
    exact Nat.one_lt_two
  · intro hlone
    obtain ⟨e', hmembers, -⟩ := driver_of_lone hh hlone
    have hin : e ∈ (g.groupIn g.edges (g.handleOf e)).members := List.mem_filter.2 ⟨he, by simp⟩
    rw [hmembers, List.mem_singleton] at hin
    subst hin
    refine ⟨hh, ?_⟩
    change _ = g.groupIn g.edges (g.handleOf e)
    rw [← hmembers]
    rfl

/-- The edges of a group all share its handle, or none does. -/
theorem filter_members {group : Group} (hgroup : group ∈ g.groups) :
    group.members.filter (fun e => !decide (g.handles.count (g.handleOf e) < 2)) =
      if 2 ≤ group.members.length then group.members else [] := by
  obtain ⟨-, he⟩ := mem_groups.1 hgroup
  have hlen := g.length_members group.handle
  rw [← he] at hlen
  have hhandle : ∀ e ∈ group.members, g.handleOf e = group.handle := by
    intro e hm
    rw [he] at hm
    exact of_decide_eq_true (List.mem_filter.1 hm).2
  split
  · rw [List.filter_eq_self]
    intro e hm
    simp only [hhandle e hm, Bool.not_eq_true', decide_eq_false_iff_not]
    omega
  · rw [List.filter_eq_nil_iff]
    intro e hm
    simp only [hhandle e hm, Bool.not_eq_true', decide_eq_false_iff_not]
    omega

theorem filter_groups {groups : List Group} (hmem : ∀ group ∈ groups, group ∈ g.groups) :
    (groups.flatMap Group.members).filter
        (fun e => !decide (g.handles.count (g.handleOf e) < 2)) =
      (groups.filter fun group => 2 ≤ group.members.length).flatMap Group.members := by
  induction groups with
  | nil => rfl
  | cons group rest ih =>
    rw [List.flatMap_cons, List.filter_append, filter_members (hmem group (by simp)),
      ih fun k hk => hmem k (List.mem_cons_of_mem _ hk)]
    by_cases hlen : 2 ≤ group.members.length <;> simp [hlen]

/-- Each edge is lone or in one shared group. -/
theorem perm_lone_shared (g : Graph) :
    (g.loneEdges ++ g.sharedGroups.flatMap Group.members).Perm g.edges := by
  have hshared : (g.sharedGroups.flatMap Group.members).Perm
      (g.edges.filter fun e => !decide (g.handles.count (g.handleOf e) < 2)) := by
    unfold sharedGroups
    rw [← filter_groups fun _ h => h]
    exact (g.groupsOf_perm g.edges).filter _
  rw [loneEdges_eq, unsharedEdges]
  exact (hshared.append_left _).trans (List.filter_append_perm _ _)

end Graph

/-! ## Normalization -/

/-- The normalized graph is the graph of the author with each shared handle behind one OR
node. No edge is lost and none doubled, and the one driver of each handle is the OR of all
that drove it. -/
theorem normalize_keeps_meaning (g : Graph) :
    List.Forall₂ Merge.Joins g.normalize.merges g.sharedGroups ∧
    g.normalize.graph.nodes = g.nodes ++ g.normalize.merges.map (fun m =>
      { id := m.node
        kind := .gate .or (UInt32.ofNat m.sources.length)
        synthetic := true }) ∧
    g.normalize.graph.edges = g.loneEdges ++ g.normalize.merges.flatMap (fun m =>
      m.sources.zipIdx.map (fun (source, k) =>
        { source, target := m.node, targetHandle := "in" ++ k.repr }) ++
      [{ source := m.node, target := m.target, targetHandle := m.handle }]) ∧
    (g.loneEdges ++ g.sharedGroups.flatMap Group.members).Perm g.edges ∧
    ∀ values : String → Bool,
      (∀ m ∈ g.normalize.merges,
        g.mergedValue values m.node = m.sources.any (g.mergedValue values)) ∧
      ∀ group ∈ g.groups, ∃ driver,
        g.normalize.graph.driversOf group.handle = [driver] ∧
        g.mergedValue values driver = group.members.any fun e => values e.source := by
  refine ⟨g.merges_join, rfl, ?_, g.perm_lone_shared, fun values => ⟨?_, ?_⟩⟩
  · rw [Graph.loneEdges_eq]
    rfl
  · intro m hm
    rw [Graph.mergedValue_merge hm, Bool.eq_iff_iff, List.any_eq_true, List.any_eq_true]
    have hmem : ∀ s ∈ m.sources, g.mergedValue values s = values s := fun s hs =>
      Graph.mergedValue_of_mem ((Graph.merge_ends hm).2 s hs) values
    constructor
    · rintro ⟨s, hs, hv⟩
      exact ⟨s, hs, (hmem s hs).trans hv⟩
    · rintro ⟨s, hs, hv⟩
      exact ⟨s, hs, (hmem s hs).symm.trans hv⟩
  · intro group hgroup
    obtain ⟨hh, he⟩ := Graph.mem_groups.1 hgroup
    have hmember : ∀ e ∈ group.members, e.source ∈ g.ids := by
      intro e hm
      rw [he] at hm
      exact (g.ends_known e (List.mem_filter.1 hm).1).1
    by_cases hs : 2 ≤ g.handles.count group.handle
    · obtain ⟨m, hm, hjoin, hdriver⟩ :=
        Graph.driver_of_shared (Graph.mem_sharedHandles.2 ⟨hh, hs⟩)
      rw [← he] at hjoin
      refine ⟨m.node, hdriver, ?_⟩
      rw [Graph.mergedValue_merge hm, hjoin.perm.any_eq, List.any_map]
      rfl
    · obtain ⟨e, hmembers, hdriver⟩ := Graph.driver_of_lone hh (by omega)
      rw [← he] at hmembers
      refine ⟨e.source, hdriver, ?_⟩
      have hsource : e.source ∈ g.ids := hmember e (by simp [hmembers])
      rw [hmembers, Graph.mergedValue_of_mem hsource]
      simp

end LogicWiring
