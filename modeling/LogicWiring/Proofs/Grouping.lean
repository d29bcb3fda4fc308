-- The edges in groups, one group for each driven handle. One pass over the
-- edges makes them: an edge joins the group of its handle, or opens it. So
-- the groups stand in the order of their first edges, and each edge is in
-- one of them, once.
import LogicWiring.FanIn
import Mathlib.Data.List.Induction

namespace LogicWiring

/-! ## Distinct members -/

theorem eraseDups_concat {α : Type} [DecidableEq α] (l : List α) (a : α) :
    (l ++ [a]).eraseDups = if a ∈ l then l.eraseDups else l.eraseDups ++ [a] := by
  rw [List.eraseDups_append]
  by_cases ha : a ∈ l
  · simp [ha, List.removeAll]
  · simp [ha, List.removeAll, List.eraseDups_cons]

theorem nodup_eraseDups {α : Type} [DecidableEq α] (l : List α) : l.eraseDups.Nodup := by
  induction l using List.reverseRecOn with
  | nil => simp
  | append_singleton l a ih =>
    rw [eraseDups_concat]
    split
    · exact ih
    · rename_i ha
      refine List.nodup_append.2 ⟨ih, by simp, ?_⟩
      intro x hx y hy hxy
      rw [List.mem_singleton.1 hy] at hxy
      exact ha (List.mem_eraseDups.1 (hxy ▸ hx))

/-! ## Groups -/

/-- The edges that drive one handle, in edge order. -/
structure Group where
  handle : Handle
  members : List Edge
  deriving DecidableEq, Repr

/-- Takes an edge into the group of its handle, or opens a group for it at the end. -/
def collect (h : Handle) (e : Edge) : List Group → List Group
  | [] => [{ handle := h, members := [e] }]
  | group :: rest =>
    if group.handle = h then { group with members := group.members ++ [e] } :: rest
    else group :: collect h e rest

namespace Graph

variable {g : Graph}

/-- The groups after a pass over some edges. -/
def groupsOf (g : Graph) (edges : List Edge) : List Group :=
  edges.foldl (fun groups e => collect (g.handleOf e) e groups) []

def groups (g : Graph) : List Group := g.groupsOf g.edges

/-- All edges of a list that drive a handle. -/
def groupIn (g : Graph) (edges : List Edge) (h : Handle) : Group where
  handle := h
  members := edges.filter fun e => g.handleOf e = h

theorem groupIn_concat_of_ne {edges : List Edge} {e : Edge} {h : Handle} (hne : g.handleOf e ≠ h) :
    g.groupIn (edges ++ [e]) h = g.groupIn edges h := by
  simp [groupIn, hne]

theorem groupIn_concat_self (edges : List Edge) (e : Edge) :
    g.groupIn (edges ++ [e]) (g.handleOf e) =
      { g.groupIn edges (g.handleOf e) with
        members := (g.groupIn edges (g.handleOf e)).members ++ [e] } := by
  simp [groupIn]

/-- The edge joins the group of its handle, and the other groups stay as they are. -/
theorem collect_of_mem {edges : List Edge} {e : Edge} {hs : List Handle} (hnd : hs.Nodup)
    (hm : g.handleOf e ∈ hs) :
    collect (g.handleOf e) e (hs.map (g.groupIn edges)) = hs.map (g.groupIn (edges ++ [e])) := by
  induction hs with
  | nil => simp at hm
  | cons h rest ih =>
    obtain ⟨hout, hnd⟩ := List.nodup_cons.1 hnd
    rw [List.map_cons, List.map_cons, collect]
    by_cases hh : h = g.handleOf e
    · rw [if_pos (by exact hh), hh, groupIn_concat_self]
      congr 1
      apply List.map_congr_left
      intro k hk
      exact (groupIn_concat_of_ne fun he => hout (by rw [hh, he]; exact hk)).symm
    · rw [if_neg (by exact hh), groupIn_concat_of_ne (Ne.symm hh),
        ih hnd ((List.mem_cons.1 hm).resolve_left (Ne.symm hh))]

/-- A handle that no edge drove before opens a group of its own. -/
theorem collect_of_not_mem {edges : List Edge} {e : Edge} {hs : List Handle}
    (hm : g.handleOf e ∉ hs) :
    collect (g.handleOf e) e (hs.map (g.groupIn edges)) =
      hs.map (g.groupIn (edges ++ [e])) ++ [{ handle := g.handleOf e, members := [e] }] := by
  induction hs with
  | nil => simp [collect]
  | cons h rest ih =>
    obtain ⟨hh, hrest⟩ := not_or.1 (mt List.mem_cons.2 hm)
    rw [List.map_cons, List.map_cons, collect, if_neg (by exact Ne.symm hh),
      groupIn_concat_of_ne hh, ih hrest, List.cons_append]

/-- What a pass over some edges leaves: the handles in the order of their first edges,
each with all edges that drive it. -/
theorem groupsOf_eq (g : Graph) (edges : List Edge) :
    g.groupsOf edges = (edges.map g.handleOf).eraseDups.map (g.groupIn edges) := by
  induction edges using List.reverseRecOn with
  | nil => simp [groupsOf]
  | append_singleton edges e ih =>
    have hstep : g.groupsOf (edges ++ [e]) = collect (g.handleOf e) e (g.groupsOf edges) := by
      simp [groupsOf]
    rw [hstep, ih, List.map_append, List.map_singleton, eraseDups_concat]
    by_cases hm : g.handleOf e ∈ edges.map g.handleOf
    · rw [if_pos hm]
      exact collect_of_mem (nodup_eraseDups _) (List.mem_eraseDups.2 hm)
    · have hnone : g.groupIn (edges ++ [e]) (g.handleOf e) = ⟨g.handleOf e, [e]⟩ := by
        have hempty : edges.filter (fun x => g.handleOf x = g.handleOf e) = [] := by
          rw [List.filter_eq_nil_iff]
          intro x hx hxe
          exact hm (List.mem_map.2 ⟨x, hx, of_decide_eq_true hxe⟩)
        simp [groupIn, hempty]
      rw [if_neg hm, List.map_append, List.map_singleton, hnone]
      exact collect_of_not_mem fun h => hm (List.mem_eraseDups.1 h)

theorem groups_eq (g : Graph) : g.groups = g.handles.eraseDups.map (g.groupIn g.edges) :=
  g.groupsOf_eq g.edges

theorem mem_groups {group : Group} :
    group ∈ g.groups ↔ group.handle ∈ g.handles ∧ group = g.groupIn g.edges group.handle := by
  rw [groups_eq, List.mem_map]
  constructor
  · rintro ⟨h, hh, rfl⟩
    exact ⟨List.mem_eraseDups.1 hh, rfl⟩
  · rintro ⟨hh, he⟩
    exact ⟨group.handle, List.mem_eraseDups.2 hh, he.symm⟩

theorem length_members (g : Graph) (h : Handle) :
    (g.groupIn g.edges h).members.length = g.handles.count h := by
  unfold groupIn handles List.count
  rw [← List.countP_eq_length_filter, List.countP_map]
  apply List.countP_congr
  intro e _
  simp

end Graph

/-! ## No edge lost, none doubled -/

theorem perm_collect (h : Handle) (e : Edge) (groups : List Group) :
    ((collect h e groups).flatMap Group.members).Perm (groups.flatMap Group.members ++ [e]) := by
  induction groups with
  | nil => simp [collect]
  | cons group rest ih =>
    rw [collect]
    split
    · simp only [List.flatMap_cons, List.append_assoc]
      exact List.Perm.append_left _ List.perm_append_comm
    · simp only [List.flatMap_cons, List.append_assoc]
      exact List.Perm.append_left _ ih

theorem Graph.groupsOf_perm (g : Graph) (edges : List Edge) :
    ((g.groupsOf edges).flatMap Group.members).Perm edges := by
  induction edges using List.reverseRecOn with
  | nil => simp [groupsOf]
  | append_singleton edges e ih =>
    have hstep : g.groupsOf (edges ++ [e]) = collect (g.handleOf e) e (g.groupsOf edges) := by
      simp [groupsOf]
    rw [hstep]
    exact (perm_collect _ _ _).trans (ih.append_right _)

end LogicWiring
