-- Fresh ids for the merges. The rewriting of a graph takes its groups one
-- after another. For a shared handle it looks for an id that no node has: the
-- base, then the base with 1, 2, … after it, with no bound. Only so many of
-- these are taken as there are nodes, so each search ends, all ids stay
-- different, and the lists that the rewriting leaves are those of a graph.
import LogicWiring.Proofs.Grouping
import LogicWiring.Proofs.Building
import Mathlib

namespace LogicWiring

/-! ## The search for a number -/

/-- A search for a free number from `n` on, as it goes: it ends with an id after some looks.
A search that finds no free number has no end. -/
inductive NumberSearch (base : String) (taken : List String) : Nat → Nat → String → Prop
  | free {n : Nat} (h : base ++ n.repr ∉ taken) : NumberSearch base taken n 1 (base ++ n.repr)
  | next {n looks : Nat} {id : String} (h : base ++ n.repr ∈ taken)
      (hrest : NumberSearch base taken (n + 1) looks id) :
      NumberSearch base taken n (looks + 1) id

variable {base : String} {taken : List String}

theorem NumberSearch.of_first_free {start gap : Nat} (hfree : base ++ (start + gap).repr ∉ taken)
    (hbefore : ∀ k < gap, base ++ (start + k).repr ∈ taken) :
    NumberSearch base taken start (gap + 1) (base ++ (start + gap).repr) := by
  induction gap generalizing start with
  | zero => exact .free hfree
  | succ gap ih =>
    have hshift : ∀ k, start + (k + 1) = start + 1 + k := by omega
    refine .next (hbefore 0 gap.succ_pos) ?_
    rw [hshift gap] at hfree ⊢
    refine ih hfree fun k hk => ?_
    rw [← hshift k]
    exact hbefore (k + 1) (Nat.succ_lt_succ hk)

/-- An id to be taken for a base: the base itself, or else the base with the smallest free number
from 1 on, which the search finds within as many looks as there are taken ids. -/
inductive FreshFor (base : String) (taken : List String) : String → Prop
  | plain (hfree : base ∉ taken) : FreshFor base taken base
  | numbered {n : Nat} (hbase : base ∈ taken) (hfree : base ++ n.repr ∉ taken) (hpos : 1 ≤ n)
      (hsmallest : ∀ k, 1 ≤ k → k < n → base ++ k.repr ∈ taken)
      (hsearch : NumberSearch base taken 1 n (base ++ n.repr)) (hlooks : n ≤ taken.length) :
      FreshFor base taken (base ++ n.repr)

theorem freshId_eq_numbered (hbase : base ∈ taken) : ∃ gap < taken.length,
    freshId base taken = base ++ (1 + gap).repr ∧
      ∀ k < gap, base ++ (1 + k).repr ∈ taken := by
  have hnew := freshId_not_mem base taken
  unfold freshId at hnew ⊢
  cases hfind : (idCandidates base taken).find? fun id => decide (id ∉ taken) with
  | none =>
    rw [hfind] at hnew
    exact absurd hbase hnew
  | some id =>
    rw [idCandidates, List.find?_cons_of_neg (by simpa using hbase), List.find?_map,
      Option.map_eq_some_iff] at hfind
    obtain ⟨gap, hgap, rfl⟩ := hfind
    obtain ⟨-, hlt, hbefore⟩ := List.find?_range_eq_some.1 hgap
    refine ⟨gap, List.mem_range.1 hlt, by rw [Nat.add_comm 1]; rfl, fun k hk => ?_⟩
    rw [Nat.add_comm 1]
    simpa using hbefore k hk

theorem freshId_freshFor (base : String) (taken : List String) :
    FreshFor base taken (freshId base taken) := by
  by_cases hbase : base ∈ taken
  · have hnew := freshId_not_mem base taken
    obtain ⟨gap, hgap, he, hbefore⟩ := freshId_eq_numbered hbase
    rw [he] at hnew ⊢
    refine .numbered hbase hnew (Nat.le_add_right 1 gap) ?_ ?_ (by omega)
    · intro k hk hlt
      obtain ⟨j, rfl⟩ := Nat.exists_eq_add_of_le hk
      exact hbefore j (by omega)
    · have hsearch := NumberSearch.of_first_free hnew hbefore
      rwa [Nat.add_comm gap] at hsearch
  · have he : freshId base taken = base := by simp [freshId, idCandidates, hbase]
    rw [he]
    exact .plain hbase

/-- A counter of 32 bits with a sign is wide enough for the search, unless there are more taken ids
than it has numbers. -/
theorem FreshFor.number_lt {id : String} (h : FreshFor base taken id)
    (hfew : taken.length < 2 ^ 31) : id = base ∨ ∃ n < 2 ^ 31, id = base ++ n.repr := by
  cases h with
  | plain hfree => exact .inl rfl
  | numbered hbase hfree hpos hsmallest hsearch hlooks =>
    exact .inr ⟨_, Nat.lt_of_le_of_lt hlooks hfew, rfl⟩

/-! ## The rewriting -/

def Handle.orBase (h : Handle) : String := h.node ++ "." ++ h.text ++ ".or"

/-- The merge of a group. Members with one source keep the author's order. -/
def Group.merge (group : Group) (taken : List String) : Merge where
  node := freshId group.handle.orBase taken
  target := group.handle.node
  handle := group.handle.text
  sources := (group.members.mergeSort fun a b => decide (a.source ≤ b.source)).map Edge.source

/-- The lists of the new graph as they grow, with the ids that are taken and the merges so far. -/
structure Rewriting where
  nodes : List Node
  edges : List Edge
  taken : List String
  merges : List Merge
  deriving DecidableEq, Repr

namespace Rewriting

def add (r : Rewriting) (m : Merge) : Rewriting where
  nodes := r.nodes ++ [m.toNode]
  edges := r.edges ++ m.edges
  taken := m.node :: r.taken
  merges := r.merges ++ [m]

/-- A handle with a single driver needs no merge. -/
def step (r : Rewriting) (group : Group) : Rewriting :=
  if group.members.length < 2 then r else r.add (group.merge r.taken)

end Rewriting

namespace Graph

/-- The rewriting after some groups. -/
def rewriting (g : Graph) (groups : List Group) : Rewriting :=
  groups.foldl Rewriting.step
    { nodes := g.nodes, edges := g.unsharedEdges, taken := g.ids, merges := [] }

variable {g : Graph}

theorem merge_groupIn (g : Graph) (taken : List String) (h : Handle) :
    (g.groupIn g.edges h).merge taken = g.merge taken h := by
  have hsources : ((g.groupIn g.edges h).members.mergeSort
      fun a b => decide (a.source ≤ b.source)).map Edge.source =
        (g.driversOf h).mergeSort fun a b => decide (a ≤ b) :=
    List.map_mergeSort fun _ _ _ _ => rfl
  rw [Group.merge, merge, hsources]
  rfl

/-! ## The invariant -/

/-- The taken ids are those of the nodes, all different, and all ends of edges are among them. -/
structure SoundRewriting (g : Graph) (r : Rewriting) : Prop where
  taken : r.taken.Perm (r.nodes.map Node.id)
  distinct : r.taken.Nodup
  kept : g.ids ⊆ r.taken
  known : ∀ e ∈ r.edges, e.Known r.taken

theorem soundRewriting_start (g : Graph) : g.SoundRewriting (g.rewriting []) where
  taken := .refl _
  distinct := g.ids_nodup
  kept := fun _ hid => hid
  known := fun e he => g.ends_known e (List.mem_filter.1 he).1

theorem SoundRewriting.add {r : Rewriting} (hr : g.SoundRewriting r) {h : Handle}
    (hh : h ∈ g.handles) : g.SoundRewriting (r.add (g.merge r.taken h)) where
  taken := by
    rw [Rewriting.add, List.map_append, List.map_singleton]
    exact (hr.taken.cons _).trans (List.perm_append_singleton _ _).symm
  distinct := List.nodup_cons.2 ⟨freshId_not_mem _ _, hr.distinct⟩
  kept := fun id hid => List.mem_cons_of_mem _ (hr.kept hid)
  known := by
    obtain ⟨htarget, hsources⟩ := merge_known hh r.taken
    intro e he
    rcases List.mem_append.1 he with he | he
    · exact (hr.known e he).imp (List.mem_cons_of_mem _) (List.mem_cons_of_mem _)
    · rcases Merge.edge_ends he with ⟨hsource, ht⟩ | ⟨hs, ht⟩
      · exact ⟨List.mem_cons_of_mem _ (hr.kept (hsources _ hsource)), ht ▸ List.mem_cons_self ..⟩
      · exact ⟨hs ▸ List.mem_cons_self .., ht ▸ List.mem_cons_of_mem _ (hr.kept htarget)⟩

/-- One group keeps the rewriting sound. -/
theorem SoundRewriting.step {r : Rewriting} (hr : g.SoundRewriting r) {group : Group}
    (hgroup : group ∈ g.groups) : g.SoundRewriting (r.step group) := by
  obtain ⟨hh, he⟩ := mem_groups.1 hgroup
  rw [Rewriting.step]
  split
  · exact hr
  · rw [he, merge_groupIn]
    exact hr.add hh

/-- The rewriting is sound after any number of groups. -/
theorem soundRewriting (g : Graph) {before after : List Group} (h : g.groups = before ++ after) :
    g.SoundRewriting (g.rewriting before) := by
  -- The step for the last group comes behind all others, so that group is split off.
  induction before using List.reverseRecOn generalizing after with
  | nil => exact g.soundRewriting_start
  | append_singleton before group ih =>
    rw [List.append_assoc] at h
    rw [rewriting, List.foldl_append]
    exact (ih h).step (h ▸ by simp)

/-- The lists of a sound rewriting are those of a graph. -/
theorem SoundRewriting.exists_build {r : Rewriting} (hr : g.SoundRewriting r) :
    ∃ g', build r.nodes r.edges = .ok g' := by
  refine exists_build_iff.2 ⟨hr.taken.nodup_iff.1 hr.distinct, fun e he => ?_⟩
  exact (hr.known e he).imp hr.taken.mem_iff.1 hr.taken.mem_iff.1

/-! ## What the rewriting leaves -/

/-- The groups of some handles leave the merges of those that are shared. -/
theorem foldl_step_groupIn (g : Graph) (hs : List Handle) (r : Rewriting) :
    let ms := g.mergeAll r.taken (hs.filter fun h => 2 ≤ g.handles.count h)
    let r' := (hs.map (g.groupIn g.edges)).foldl Rewriting.step r
    r'.merges = r.merges ++ ms ∧ r'.nodes = r.nodes ++ ms.map Merge.toNode ∧
      r'.edges = r.edges ++ ms.flatMap Merge.edges := by
  induction hs generalizing r with
  | nil => simp [mergeAll]
  | cons h rest ih =>
    simp only [List.map_cons, List.foldl_cons]
    by_cases hcount : 2 ≤ g.handles.count h
    · have hstep : r.step (g.groupIn g.edges h) = r.add (g.merge r.taken h) := by
        rw [Rewriting.step, length_members, if_neg (Nat.not_lt.2 hcount), merge_groupIn]
      rw [hstep, List.filter_cons_of_pos (by simpa using hcount), mergeAll]
      simpa [Rewriting.add] using ih (r.add (g.merge r.taken h))
    · have hstep : r.step (g.groupIn g.edges h) = r := by
        rw [Rewriting.step, length_members, if_pos (Nat.lt_of_not_le hcount)]
      rw [hstep, List.filter_cons_of_neg (by simpa using hcount)]
      exact ih r

theorem rewriting_groups (g : Graph) :
    (g.rewriting g.groups).merges = g.normalize.merges ∧
      (g.rewriting g.groups).nodes = g.normalize.graph.nodes ∧
      (g.rewriting g.groups).edges = g.normalize.graph.edges := by
  rw [groups_eq, rewriting]
  exact g.foldl_step_groupIn g.handles.eraseDups _

/-- No search for an id goes on for ever, and the rewriting always ends with a graph, whatever ids
the author chose and whichever handles share a base. -/
theorem rewriting_never_fails (g : Graph) :
    (∀ before group after, g.groups = before ++ group :: after →
      g.SoundRewriting (g.rewriting before) ∧
        FreshFor group.handle.orBase (g.rewriting before).taken
          (group.merge (g.rewriting before).taken).node) ∧
      (g.rewriting g.groups).merges = g.normalize.merges ∧
      build (g.rewriting g.groups).nodes (g.rewriting g.groups).edges = .ok g.normalize.graph := by
  obtain ⟨hmerges, hnodes, hedges⟩ := g.rewriting_groups
  refine ⟨fun before group after hsplit => ?_, hmerges, ?_⟩
  · exact ⟨g.soundRewriting hsplit, freshId_freshFor _ _⟩
  · obtain ⟨g', hg'⟩ := (g.soundRewriting (List.append_nil g.groups).symm).exists_build
    obtain ⟨hn, he⟩ := build_eq_ok_iff.1 hg'
    rw [hg', ext_nodes_edges (hn.trans hnodes) (he.trans hedges)]

/-- Two handles with the base `a.b.in.or`, and a node with the id that would come next. -/
def imitated : Graph where
  nodes := [{ id := "x", kind := .input (some 2) }, { id := "y", kind := .input (some 3) },
    { id := "a", kind := .not }, { id := "a.b", kind := .not }, { id := "a.b.in.or1", kind := .not }]
  edges := [
    { source := "y", target := "a", targetHandle := "b.in" },
    { source := "x", target := "a", targetHandle := "b.in" },
    { source := "x", target := "a.b" }, { source := "y", target := "a.b" }]
  ids_nodup := by decide
  ends_known := by decide

theorem imitated_never_fails :
    imitated.groups = imitated.groups.take 1 ++ [imitated.groupIn imitated.edges ⟨"a.b", some "in"⟩] ∧
    (imitated.rewriting (imitated.groups.take 1)).taken =
      ["a.b.in.or", "x", "y", "a", "a.b", "a.b.in.or1"] ∧
    FreshFor "a.b.in.or" ["a.b.in.or", "x", "y", "a", "a.b", "a.b.in.or1"] "a.b.in.or2" ∧
    ∃ g', build (imitated.rewriting imitated.groups).nodes
        (imitated.rewriting imitated.groups).edges = .ok g' ∧
      g'.ids = ["x", "y", "a", "a.b", "a.b.in.or1", "a.b.in.or", "a.b.in.or2"] := by
  have hgroups : imitated.groups =
      imitated.groups.take 1 ++ [imitated.groupIn imitated.edges ⟨"a.b", some "in"⟩] := by cbv
  have htaken : (imitated.rewriting (imitated.groups.take 1)).taken =
      ["a.b.in.or", "x", "y", "a", "a.b", "a.b.in.or1"] := by cbv
  have hnode : ((imitated.groupIn imitated.edges ⟨"a.b", some "in"⟩).merge
      ["a.b.in.or", "x", "y", "a", "a.b", "a.b.in.or1"]).node = "a.b.in.or2" := by cbv
  obtain ⟨hsteps, -, hbuild⟩ := rewriting_never_fails imitated
  have hfresh := (hsteps _ _ _ hgroups).2
  rw [htaken, hnode] at hfresh
  exact ⟨hgroups, htaken, hfresh, _, hbuild, by cbv⟩

end Graph

end LogicWiring
