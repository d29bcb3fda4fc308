-- The check of the handles. It accepts a graph in which no two edges share a
-- handle, and so does the loop that stops at the first handle seen before.
-- Normalization makes every graph such a graph. A graph with one driver for
-- each handle it leaves alone.
import LogicWiring.Proofs.Merging
import Mathlib

namespace LogicWiring

namespace Graph

variable {g : Graph}

/-! ## What the check finds -/

theorem handleOf_eq_iff {e e' : Edge} : g.handleOf e = g.handleOf e' ↔
    e.target = e'.target ∧ (g.isSink e.target = true ∨ e.targetHandle = e'.targetHandle) := by
  simp only [handleOf, Handle.mk.injEq]
  constructor
  · rintro ⟨ht, hname⟩
    refine ⟨ht, ?_⟩
    by_cases hs : g.isSink e.target = true
    · exact .inl hs
    · rw [if_neg hs, ← ht, if_neg hs] at hname
      exact .inr (Option.some.inj hname)
  · rintro ⟨ht, hs⟩
    refine ⟨ht, ?_⟩
    rw [← ht]
    rcases hs with hs | hs
    · rw [if_pos hs, if_pos hs]
    · rw [hs]

theorem singleDriver_iff_nodup : g.fanInCert.singleDriver = true ↔ g.handles.Nodup :=
  decide_eq_true_iff

theorem singleDriver_iff : g.fanInCert.singleDriver = true ↔ g.edges.Pairwise fun e e' =>
    ¬ (e.target = e'.target ∧
      (g.isSink e.target = true ∨ e.targetHandle = e'.targetHandle)) := by
  rw [singleDriver_iff_nodup, handles, List.Nodup, List.pairwise_map]
  constructor
  · intro h
    exact h.imp fun hne hs => hne (handleOf_eq_iff.2 hs)
  · intro h
    exact h.imp fun hne he => hne (handleOf_eq_iff.1 he)

theorem mergeConsistent_iff {n : Node} : g.mergeConsistent n = true ↔
    ∃ fanIn, n.kind = .gate .or fanIn ∧ fanIn.toNat = g.edges.countP (·.target == n.id) := by
  unfold mergeConsistent
  split
  · rename_i fanIn hk
    rw [decide_eq_true_eq, hk]
    constructor
    · intro h
      exact ⟨fanIn, rfl, h⟩
    · rintro ⟨fanIn', he, h⟩
      cases he
      exact h
  · rename_i hk
    simp only [Bool.false_eq_true, false_iff]
    rintro ⟨fanIn, he, -⟩
    exact hk fanIn he

theorem mergesConsistent_iff : g.fanInCert.mergesConsistent = true ↔
    ∀ n ∈ g.nodes, n.synthetic = true → g.mergeConsistent n = true := by
  simp only [fanInCert, List.all_eq_true, Bool.or_eq_true, Bool.not_eq_true']
  constructor
  · intro h n hn hs
    exact (h n hn).resolve_left (by simp [hs])
  · intro h n hn
    by_cases hs : n.synthetic = true
    · exact .inr (h n hn hs)
    · exact .inl (by simpa using hs)

theorem mergesConsistent_iff_inDegree : g.fanInCert.mergesConsistent = true ↔
    ∀ i n, g.nodes[i]? = some n → n.synthetic = true →
      ∃ fanIn, n.kind = .gate .or fanIn ∧ fanIn.toNat = g.inDegree i := by
  rw [mergesConsistent_iff]
  constructor
  · intro h i n hi hs
    rw [inDegree_eq_countP hi]
    exact mergeConsistent_iff.1 (h n (List.mem_of_getElem? hi) hs)
  · intro h n hn hs
    obtain ⟨i, hi⟩ := List.mem_iff_getElem?.1 hn
    rw [mergeConsistent_iff, ← inDegree_eq_countP hi]
    exact h i n hi hs

/-! ## The check as a loop -/

section

variable {κ : Type} [BEq κ] [Hashable κ]

/-- Whether no key comes twice, up to the first one that was seen before. -/
def allNew (seen : Std.HashSet κ) : List κ → Bool
  | [] => true
  | k :: rest => if seen.contains k then false else allNew (seen.insert k) rest

theorem allNew_iff [LawfulBEq κ] [LawfulHashable κ] {seen : Std.HashSet κ} {keys : List κ} :
    allNew seen keys = true ↔ keys.Nodup ∧ ∀ k ∈ keys, k ∉ seen := by
  induction keys generalizing seen with
  | nil => simp [allNew]
  | cons k rest ih =>
    rw [allNew, List.nodup_cons, List.forall_mem_cons]
    by_cases hk : k ∈ seen
    · rw [if_pos (Std.HashSet.mem_iff_contains.1 hk)]
      simp [hk]
    · rw [if_neg (mt Std.HashSet.mem_iff_contains.2 hk), ih]
      simp only [Std.HashSet.mem_insert, beq_iff_eq, not_or]
      constructor
      · rintro ⟨hnd, hseen⟩
        exact ⟨⟨fun hmem => (hseen k hmem).1 rfl, hnd⟩, hk, fun x hx => (hseen x hx).2⟩
      · rintro ⟨⟨hout, hnd⟩, -, hseen⟩
        exact ⟨hnd, fun x hx => ⟨fun hkx => hout (hkx ▸ hx), hseen x hx⟩⟩

end

/-- What the loop knows a handle by: the place of its node, and its name unless that is a sink. -/
def groupKey (g : Graph) (l : Link) : Nat × Option String :=
  (l.target, if g.isSinkAt l.target then none else some l.handle)

/-- An OR gate that counts the wires into its place right. -/
def countsWires (g : Graph) (i : Nat) (n : Node) : Bool :=
  match n.kind with
  | .gate .or fanIn => fanIn.toNat = g.inDegree i
  | _ => false

/-- The check that goes over the edges with a table of the keys seen so far, and then over the
nodes. -/
def checkFanIn (g : Graph) : FanInCert where
  singleDriver := allNew ∅ (g.links.map g.groupKey)
  mergesConsistent := g.nodes.zipIdx.all fun (n, i) => !n.synthetic || g.countsWires i n

theorem groupKey_link {e : Edge} (he : e ∈ g.edges) :
    g.groupKey (e.link g.nodes) = (g.index e.target, (g.handleOf e).name) := by
  have hsink : g.isSinkAt (e.link g.nodes).target = g.isSink e.target :=
    isSinkAt_index (g.ends_known e he).2
  rw [groupKey, hsink]
  rfl

theorem groupKeys_nodup_iff : (g.links.map g.groupKey).Nodup ↔ g.handles.Nodup := by
  rw [g.links_eq, handles, List.map_map, List.Nodup, List.Nodup, List.pairwise_map,
    List.pairwise_map]
  refine List.Pairwise.iff_of_mem fun {e e'} he he' => not_congr ?_
  rw [Function.comp_apply, Function.comp_apply, groupKey_link he, groupKey_link he',
    Prod.mk.injEq, index_inj (g.ends_known e he).2 (g.ends_known e' he').2]
  exact Iff.of_eq (Handle.mk.injEq ..).symm

theorem countsWires_eq {i : Nat} {n : Node} (h : g.nodes[i]? = some n) :
    g.countsWires i n = g.mergeConsistent n := by
  rw [countsWires, inDegree_eq_countP h]
  rfl

/-- The loops find what the check says. -/
theorem checkFanIn_eq (g : Graph) : g.checkFanIn = g.fanInCert := by
  have hsingle : g.checkFanIn.singleDriver = g.fanInCert.singleDriver := by
    rw [Bool.eq_iff_iff, singleDriver_iff_nodup, ← groupKeys_nodup_iff]
    exact allNew_iff.trans (by simp)
  have hmerges : g.checkFanIn.mergesConsistent = g.fanInCert.mergesConsistent := by
    rw [Bool.eq_iff_iff]
    simp only [checkFanIn, fanInCert, List.all_eq_true, Prod.forall, List.mem_zipIdx_iff_getElem?]
    constructor
    · intro h n hn
      obtain ⟨i, hi⟩ := List.mem_iff_getElem?.1 hn
      rw [← countsWires_eq hi]
      exact h n i hi
    · intro h n i hi
      rw [countsWires_eq hi]
      exact h n (List.mem_of_getElem? hi)
  calc g.checkFanIn = ⟨g.checkFanIn.singleDriver, g.checkFanIn.mergesConsistent⟩ := rfl
    _ = g.fanInCert := by rw [hsingle, hmerges]

/-! ## One driver after normalization -/

theorem count_handles (g : Graph) (h : Handle) : g.handles.count h = (g.driversOf h).length := by
  rw [← length_members, driversOf, List.length_map]
  rfl

theorem mem_handles_iff_driversOf {h : Handle} : h ∈ g.handles ↔ g.driversOf h ≠ [] := by
  rw [← List.count_pos_iff, count_handles, List.length_pos_iff]

theorem one_driver {h : Handle} (hh : h ∈ g.handles) :
    ∃ driver, g.normalize.graph.driversOf h = [driver] := by
  by_cases hs : 2 ≤ g.handles.count h
  · obtain ⟨m, -, -, hdriver⟩ := driver_of_shared (mem_sharedHandles.2 ⟨hh, hs⟩)
    exact ⟨m.node, hdriver⟩
  · obtain ⟨e, -, hdriver⟩ := driver_of_lone hh (by omega)
    exact ⟨e.source, hdriver⟩

/-- Normalization drives the same handles of the author. -/
theorem mem_handles_normalize {h : Handle} (hh : h.node ∈ g.ids) :
    h ∈ g.normalize.graph.handles ↔ h ∈ g.handles := by
  rw [mem_handles_iff_driversOf]
  constructor
  · rw [driversOf_normalize hh]
    intro hne
    by_contra hout
    apply hne
    rw [List.append_eq_nil_iff, List.map_eq_nil_iff, List.map_eq_nil_iff,
      List.filter_eq_nil_iff, List.filter_eq_nil_iff]
    constructor
    · intro e he heh
      exact hout (mem_handles.2 ⟨e, (mem_unsharedEdges.1 he).1, of_decide_eq_true heh⟩)
    · intro m hm hmh
      rw [← of_decide_eq_true hmh] at hout
      exact hout (mem_sharedHandles.1 (handleOf_outputEdge hm).1).1
  · intro hmem
    obtain ⟨driver, hdriver⟩ := one_driver hmem
    simp [hdriver]

/-- The joined wires go to handles that are numbered apart. -/
theorem inputHandles_nodup {m : Merge} (hm : m ∈ g.merges) :
    (m.inputEdges.map g.handleOf).Nodup := by
  have hhandles : m.inputEdges.map g.handleOf =
      (m.sources.zipIdx.map Prod.snd).map fun k => ⟨m.node, some ("in" ++ k.repr)⟩ := by
    unfold Merge.inputEdges
    rw [List.map_map, List.map_map]
    apply List.map_congr_left
    intro p _
    exact handleOf_inputEdge hm p.1 p.2
  rw [hhandles, List.zipIdx_map_snd]
  refine List.Nodup.map_on ?_ List.nodup_range'
  intro a _ b _ hab
  simp only [Handle.mk.injEq, Option.some.injEq, true_and] at hab
  exact repr_inj ((String.append_right_inj "in").1 hab)

/-- An edge of the normalized graph that ends at no node of the author ends at a merge. -/
theorem target_of_not_mem {e : Edge} (he : e ∈ g.normalize.graph.edges) (ht : e.target ∉ g.ids) :
    ∃ m ∈ g.merges, e.target = m.node := by
  rcases List.mem_append.1 he with he | he
  · exact absurd (g.ends_known e (mem_unsharedEdges.1 he).1).2 ht
  · obtain ⟨m, hm, hem⟩ := List.mem_flatMap.1 he
    exact ⟨m, hm, (merge_edge_ends hm hem).2.resolve_left ht⟩

theorem count_handles_le (g : Graph) (h : Handle) :
    g.handles.count h ≤ ((g.edges.filter (·.target == h.node)).map g.handleOf).count h := by
  simp only [handles, List.count, List.countP_map, List.countP_filter]
  apply List.countP_mono_left
  intro e _ heh
  have heh : g.handleOf e = h := by simpa using heh
  simp [← heh, handleOf]

theorem handles_normalize_nodup (g : Graph) : g.normalize.graph.handles.Nodup := by
  rw [List.nodup_iff_count_le_one]
  intro h
  by_cases hmem : h ∈ g.normalize.graph.handles
  · by_cases hh : h.node ∈ g.ids
    · obtain ⟨driver, hdriver⟩ := one_driver ((mem_handles_normalize hh).1 hmem)
      rw [count_handles, hdriver]
      exact Nat.le_refl 1
    · -- The handle is one of a merge node, and all edges into that node are known.
      obtain ⟨e, he, rfl⟩ := mem_handles.1 hmem
      obtain ⟨m, hm, ht⟩ := target_of_not_mem he hh
      refine Nat.le_trans (count_handles_le _ _) ?_
      have hnode : (g.normalize.graph.handleOf e).node = m.node := ht
      have hhandle : g.normalize.graph.handleOf = g.handleOf := funext g.handleOf_normalize
      rw [hnode, edges_into_merge hm, hhandle]
      exact List.nodup_iff_count_le_one.1 (inputHandles_nodup hm) _
  · rw [List.count_eq_zero_of_not_mem hmem]
    exact Nat.zero_le 1

/-! ## Nothing to normalize -/

theorem normalize_of_nodup (h : g.handles.Nodup) : g.normalize = ⟨g, []⟩ := by
  have hcount : ∀ k, g.handles.count k < 2 := by
    intro k
    have := List.nodup_iff_count_le_one.1 h k
    omega
  have hshared : g.sharedHandles = [] := by
    unfold sharedHandles
    rw [List.filter_eq_nil_iff]
    intro k _
    have := hcount k
    simp only [decide_eq_true_eq]
    omega
  have hmerges : g.merges = [] := by rw [merges, hshared, mergeAll]
  have hedges : g.unsharedEdges = g.edges := by
    unfold unsharedEdges
    rw [List.filter_eq_self]
    intro e _
    exact decide_eq_true (hcount _)
  have hgraph : g.normalize.graph = g := by
    apply ext_nodes_edges
    · simp [normalize, hmerges]
    · simp [normalize, hmerges, hedges]
  calc g.normalize = ⟨g.normalize.graph, g.normalize.merges⟩ := rfl
    _ = ⟨g, []⟩ := by
      rw [hgraph]
      congr 1

/-! ## Passing the check -/

/-- Each merge node counts its wires right, as long as the count fits. -/
theorem mergeConsistent_merge {m : Merge} (hm : m ∈ g.merges) (hsize : g.edges.length < 2 ^ 32) :
    g.normalize.graph.mergeConsistent m.toNode = true := by
  have hdegree : g.normalize.graph.edges.countP (·.target == m.node) = m.sources.length := by
    rw [List.countP_eq_length_filter, edges_into_merge hm, ← m.source_inputEdges,
      List.length_map]
  have hlen : m.sources.length ≤ g.edges.length := by
    rw [(handleOf_outputEdge hm).2.perm.length_eq, List.length_map]
    exact List.length_filter_le _ _
  refine mergeConsistent_iff.2 ⟨_, rfl, ?_⟩
  change _ = g.normalize.graph.edges.countP (·.target == m.node)
  rw [hdegree, UInt32.toNat_ofNat_of_lt']
  exact Nat.lt_of_le_of_lt hlen hsize

/-- Each driven handle of an authored node keeps one of its edges. -/
theorem countP_target_normalize {id : String} (hid : id ∈ g.ids) :
    g.normalize.graph.edges.countP (·.target == id) =
      g.handles.eraseDups.countP (·.node = id) := by
  have hedges : g.normalize.graph.edges.countP (·.target == id) =
      g.normalize.graph.handles.countP (·.node = id) := by
    unfold handles
    rw [List.countP_map]
    apply List.countP_congr
    intro e _
    exact beq_iff_eq.trans decide_eq_true_iff.symm
  have hperm : (g.normalize.graph.handles.filter (·.node = id)).Perm
      (g.handles.eraseDups.filter (·.node = id)) := by
    refine (List.perm_ext_iff_of_nodup (g.handles_normalize_nodup.filter _)
      ((nodup_eraseDups _).filter _)).2 ?_
    intro h
    rw [List.mem_filter, List.mem_filter, List.mem_eraseDups]
    constructor
    · rintro ⟨hh, hn⟩
      exact ⟨(mem_handles_normalize (of_decide_eq_true hn ▸ hid)).1 hh, hn⟩
    · rintro ⟨hh, hn⟩
      exact ⟨(mem_handles_normalize (of_decide_eq_true hn ▸ hid)).2 hh, hn⟩
  rw [hedges, List.countP_eq_length_filter, List.countP_eq_length_filter, hperm.length_eq]

/-- Only the synthetic nodes of the author decide how the check ends. -/
theorem fanInCert_normalize_iff (hsize : g.edges.length < 2 ^ 32) :
    g.normalize.graph.fanInCert = ⟨true, true⟩ ↔ ∀ n ∈ g.nodes, n.synthetic = true →
      ∃ fanIn, n.kind = .gate .or fanIn ∧
        fanIn.toNat = g.handles.eraseDups.countP (·.node = n.id) := by
  have hsingle : g.normalize.graph.fanInCert.singleDriver = true :=
    singleDriver_iff_nodup.2 g.handles_normalize_nodup
  have hcert : g.normalize.graph.fanInCert = ⟨true, true⟩ ↔
      g.normalize.graph.fanInCert.mergesConsistent = true := by
    constructor
    · intro h
      rw [h]
    · intro h
      calc g.normalize.graph.fanInCert
          = ⟨g.normalize.graph.fanInCert.singleDriver,
              g.normalize.graph.fanInCert.mergesConsistent⟩ := rfl
        _ = ⟨true, true⟩ := by rw [hsingle, h]
  have hdegree : ∀ n ∈ g.nodes, g.normalize.graph.mergeConsistent n = true ↔
      ∃ fanIn, n.kind = .gate .or fanIn ∧
        fanIn.toNat = g.handles.eraseDups.countP (·.node = n.id) := by
    intro n hn
    rw [mergeConsistent_iff, countP_target_normalize (List.mem_map_of_mem hn)]
  rw [hcert, mergesConsistent_iff]
  constructor
  · intro h n hn hs
    exact (hdegree n hn).1 (h n (List.mem_append_left _ hn) hs)
  · intro h n hn hs
    rcases List.mem_append.1 hn with hn | hn
    · exact (hdegree n hn).2 (h n hn hs)
    · obtain ⟨m, hm, rfl⟩ := List.mem_map.1 hn
      exact mergeConsistent_merge hm hsize

end Graph

/-! ## The check is exact -/

/-- The check finds what it should in every graph, and its loops find the same. Normalization
leaves a graph that has single drivers as it is, makes any other one such a graph, and passes the
whole check unless the author marked a node as synthetic that is no OR of its driven handles. -/
theorem fan_in_check_exact (g : Graph) (hsize : g.edges.length < 2 ^ 32) :
    (g.fanInCert.singleDriver = true ↔ g.edges.Pairwise fun e e' =>
      ¬ (e.target = e'.target ∧
        (g.isSink e.target = true ∨ e.targetHandle = e'.targetHandle))) ∧
    (g.fanInCert.mergesConsistent = true ↔ ∀ i n, g.nodes[i]? = some n → n.synthetic = true →
      ∃ fanIn, n.kind = .gate .or fanIn ∧ fanIn.toNat = g.inDegree i) ∧
    g.normalize.graph.fanInCert.singleDriver = true ∧
    (g.fanInCert.singleDriver = true → g.normalize = ⟨g, []⟩) ∧
    g.normalize.graph.normalize = ⟨g.normalize.graph, []⟩ ∧
    (g.normalize.graph.fanInCert = ⟨true, true⟩ ↔ ∀ n ∈ g.nodes, n.synthetic = true →
      ∃ fanIn, n.kind = .gate .or fanIn ∧
        fanIn.toNat = g.handles.eraseDups.countP (·.node = n.id)) ∧
    ((∀ n ∈ g.nodes, n.synthetic = false) → g.normalize.graph.fanInCert = ⟨true, true⟩) ∧
    g.checkFanIn = g.fanInCert := by
  refine ⟨Graph.singleDriver_iff, Graph.mergesConsistent_iff_inDegree,
    Graph.singleDriver_iff_nodup.2 g.handles_normalize_nodup, ?_,
    Graph.normalize_of_nodup g.handles_normalize_nodup, Graph.fanInCert_normalize_iff hsize, ?_,
    g.checkFanIn_eq⟩
  · intro h
    exact Graph.normalize_of_nodup (Graph.singleDriver_iff_nodup.1 h)
  · intro hnone
    refine (Graph.fanInCert_normalize_iff hsize).2 fun n hn hs => ?_
    simp [hnone n hn] at hs

/-- Two wires on one handle of a node that calls itself an OR of one. -/
def junction : Graph where
  nodes := [
    { id := "a", kind := .input (some 1) },
    { id := "b", kind := .input (some 2) },
    { id := "or", kind := .gate .or 1, synthetic := true }]
  edges := [
    { source := "b", target := "or", targetHandle := "in0" },
    { source := "a", target := "or", targetHandle := "in0" }]
  ids_nodup := by decide
  ends_known := by decide

theorem junction_passes_normalized :
    junction.edges.length < 2 ^ 32 ∧ junction.fanInCert = ⟨false, false⟩ ∧
      junction.normalize.graph.fanInCert = ⟨true, true⟩ := by
  have hsize : junction.edges.length < 2 ^ 32 := by decide
  refine ⟨hsize, by decide, (fan_in_check_exact junction hsize).2.2.2.2.2.1.2 ?_⟩
  intro n hn hs
  simp only [junction, List.mem_cons, List.not_mem_nil, or_false] at hn
  rcases hn with rfl | rfl | rfl
  · simp at hs
  · simp at hs
  · exact ⟨1, rfl, by decide⟩

end LogicWiring
