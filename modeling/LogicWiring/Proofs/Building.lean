-- Building a graph from nodes and edges. The lists of a graph build that
-- graph. All other lists fail at the first offender: an id that an earlier
-- node has, or else an end that is no node.
import LogicWiring.Proofs.Positions
import Mathlib.Data.List.Forall2

namespace LogicWiring

theorem map_eq_of_forall₂ {α β γ : Type} {f : α → γ} {g : β → γ} {l : List α} {l' : List β}
    (h : List.Forall₂ (fun a b => f a = g b) l l') : l.map f = l'.map g := by
  rwa [← List.forall₂_eq_eq_eq, List.forall₂_map_left_iff, List.forall₂_map_right_iff]

/-! ## Repeated ids -/

theorem firstRepeat?_eq_none_of_nodup {seen ids : List String} (hnodup : ids.Nodup)
    (hseen : ∀ id ∈ ids, id ∉ seen) : firstRepeat? seen ids = none := by
  induction ids generalizing seen with
  | nil => rfl
  | cons id rest ih =>
    rw [List.nodup_cons] at hnodup
    rw [List.forall_mem_cons] at hseen
    rw [firstRepeat?, if_neg hseen.1]
    apply ih hnodup.2
    rintro x hx (_ | ⟨_, hs⟩)
    · exact hnodup.1 hx
    · exact hseen.2 x hx hs

/-- The ids before the one that is found are all different, and it is one of them. -/
theorem firstRepeat?_eq_some {seen ids : List String} {id : String}
    (h : firstRepeat? seen ids = some id) :
    ∃ before after, ids = before ++ id :: after ∧ before.Nodup ∧ (∀ x ∈ before, x ∉ seen) ∧
      (id ∈ seen ∨ id ∈ before) := by
  induction ids generalizing seen with
  | nil => cases h
  | cons first rest ih =>
    rw [firstRepeat?] at h
    split at h
    · rename_i hfirst
      cases h
      exact ⟨[], rest, rfl, List.nodup_nil, by simp, .inl hfirst⟩
    · rename_i hfirst
      obtain ⟨before, after, rfl, hnodup, hseen, hid⟩ := ih h
      have hnew : first ∉ before := fun hm => hseen first hm (List.mem_cons_self ..)
      refine ⟨first :: before, after, rfl, List.nodup_cons.2 ⟨hnew, hnodup⟩, ?_, ?_⟩
      · rintro x (_ | ⟨_, hx⟩) hs
        · exact hfirst hs
        · exact hseen x hx (List.mem_cons_of_mem _ hs)
      · rcases hid with hid | hid
        · rcases List.mem_cons.1 hid with rfl | hid
          · exact .inr (List.mem_cons_self ..)
          · exact .inl hid
        · exact .inr (List.mem_cons_of_mem _ hid)

theorem firstRepeat?_of_split {seen before : List String} {id : String} (hnodup : before.Nodup)
    (hseen : ∀ x ∈ before, x ∉ seen) (hid : id ∈ seen ∨ id ∈ before) (after : List String) :
    firstRepeat? seen (before ++ id :: after) = some id := by
  induction before generalizing seen with
  | nil => rw [List.nil_append, firstRepeat?, if_pos (hid.resolve_right List.not_mem_nil)]
  | cons first rest ih =>
    rw [List.nodup_cons] at hnodup
    rw [List.forall_mem_cons] at hseen
    rw [List.cons_append, firstRepeat?, if_neg hseen.1]
    apply ih hnodup.2
    · rintro x hx (_ | ⟨_, hs⟩)
      · exact hnodup.1 hx
      · exact hseen.2 x hx hs
    · rcases hid with hid | hid
      · exact .inl (List.mem_cons_of_mem _ hid)
      · rcases List.mem_cons.1 hid with rfl | hid
        · exact .inl (List.mem_cons_self ..)
        · exact .inr hid

/-! ## Unknown ends -/

/-- Both ends of the edge are among the ids. -/
def Edge.Known (ids : List String) (e : Edge) : Prop := e.source ∈ ids ∧ e.target ∈ ids

theorem Edge.unknownEnd?_eq_none_iff {ids : List String} {e : Edge} :
    e.unknownEnd? ids = none ↔ e.Known ids := by
  constructor
  · exact Edge.unknownEnd?_eq_none
  · rintro ⟨hsource, htarget⟩
    rw [unknownEnd?, if_neg (Classical.not_not.2 hsource),
      if_neg (Classical.not_not.2 htarget)]

/-- The source goes before the target. -/
theorem Edge.unknownEnd?_eq_some_iff {ids : List String} {e : Edge} {id : String} :
    e.unknownEnd? ids = some id ↔
      e.source ∉ ids ∧ id = e.source ∨ e.source ∈ ids ∧ e.target ∉ ids ∧ id = e.target := by
  unfold unknownEnd?
  by_cases hsource : e.source ∈ ids
  · by_cases htarget : e.target ∈ ids
    · simp [hsource, htarget]
    · simp [hsource, htarget, eq_comm]
  · simp [hsource, eq_comm]

theorem firstUnknown?_eq_none_of_known {ids : List String} {start : Nat} {edges : List Edge}
    (h : ∀ e ∈ edges, e.Known ids) : firstUnknown? ids start edges = none := by
  induction edges generalizing start with
  | nil => rfl
  | cons e rest ih =>
    rw [List.forall_mem_cons] at h
    rw [firstUnknown?, Edge.unknownEnd?_eq_none_iff.2 h.1]
    exact ih h.2

theorem firstUnknown?_eq_some {ids : List String} {start : Nat} {edges : List Edge} {k : Nat}
    {id : String} (h : firstUnknown? ids start edges = some (k, id)) :
    ∃ before e after, edges = before ++ e :: after ∧ (∀ x ∈ before, x.Known ids) ∧
      k = start + before.length ∧ e.unknownEnd? ids = some id := by
  induction edges generalizing start with
  | nil => cases h
  | cons e rest ih =>
    rw [firstUnknown?] at h
    split at h
    · rename_i x he
      cases h
      exact ⟨[], e, rest, rfl, by simp, rfl, he⟩
    · rename_i he
      obtain ⟨before, e', after, rfl, hknown, rfl, he'⟩ := ih h
      refine ⟨e :: before, e', after, rfl, ?_, ?_, he'⟩
      · exact List.forall_mem_cons.2 ⟨Edge.unknownEnd?_eq_none_iff.1 he, hknown⟩
      · rw [List.length_cons]
        omega

theorem firstUnknown?_of_split {ids : List String} {before : List Edge} {e : Edge} {id : String}
    (hknown : ∀ x ∈ before, x.Known ids) (he : e.unknownEnd? ids = some id) (start : Nat)
    (after : List Edge) :
    firstUnknown? ids start (before ++ e :: after) = some (start + before.length, id) := by
  induction before generalizing start with
  | nil => simp [firstUnknown?, he]
  | cons first rest ih =>
    rw [List.forall_mem_cons] at hknown
    rw [List.cons_append, firstUnknown?, Edge.unknownEnd?_eq_none_iff.2 hknown.1]
    have hlength : start + (first :: rest).length = start + 1 + rest.length := by
      rw [List.length_cons, Nat.add_comm rest.length, Nat.add_assoc]
    rw [hlength]
    exact ih hknown.2 (start + 1)

namespace Graph

/-! ## The graph or the first offender -/

/-- A graph is built from its own lists. -/
theorem build_self (g : Graph) : build g.nodes g.edges = .ok g := by
  have hrepeat : firstRepeat? [] (g.nodes.map Node.id) = none :=
    firstRepeat?_eq_none_of_nodup g.ids_nodup fun _ _ => List.not_mem_nil
  have hunknown : firstUnknown? (g.nodes.map Node.id) 0 g.edges = none :=
    firstUnknown?_eq_none_of_known g.ends_known
  unfold build
  split
  · rename_i id h
    rw [hrepeat] at h
    cases h
  · split
    · rename_i edge id h
      rw [hunknown] at h
      cases h
    · exact congrArg Except.ok (ext_nodes_edges rfl rfl)

theorem build_eq_ok_iff {nodes : List Node} {edges : List Edge} {g : Graph} :
    build nodes edges = .ok g ↔ g.nodes = nodes ∧ g.edges = edges := by
  constructor
  · intro h
    unfold build at h
    split at h
    · cases h
    · split at h
      · cases h
      · cases h
        exact ⟨rfl, rfl⟩
  · rintro ⟨rfl, rfl⟩
    exact g.build_self

/-- Lists fit together to a graph if no id is repeated and all ends are nodes. -/
theorem exists_build_iff {nodes : List Node} {edges : List Edge} :
    (∃ g, build nodes edges = .ok g) ↔
      (nodes.map Node.id).Nodup ∧ ∀ e ∈ edges, e.Known (nodes.map Node.id) := by
  constructor
  · rintro ⟨g, h⟩
    obtain ⟨rfl, rfl⟩ := build_eq_ok_iff.1 h
    exact ⟨g.ids_nodup, g.ends_known⟩
  · rintro ⟨hnodup, hknown⟩
    exact ⟨⟨nodes, edges, _, hnodup, hknown, rfl⟩, build_eq_ok_iff.2 ⟨rfl, rfl⟩⟩

/-- Where nodes with these ids and the edges fail: at the first id that is repeated, or else at the
first end that is no node. -/
inductive FirstOffender (ids : List String) (edges : List Edge) : GraphError → Prop
  | repeated (before : List String) (id : String) (after : List String)
    (hids : ids = before ++ id :: after) (hnodup : before.Nodup) (hid : id ∈ before) :
    FirstOffender ids edges (.duplicateNode id)
  | unknown (before : List Edge) (e : Edge) (after : List Edge) (id : String)
    (hnodup : ids.Nodup) (hedges : edges = before ++ e :: after)
    (hknown : ∀ x ∈ before, x.Known ids)
    (hid : e.source ∉ ids ∧ id = e.source ∨ e.source ∈ ids ∧ e.target ∉ ids ∧ id = e.target) :
    FirstOffender ids edges (.unknownEndpoint before.length id)

theorem firstOffender_of_build {nodes : List Node} {edges : List Edge} {err : GraphError}
    (h : build nodes edges = .error err) : FirstOffender (nodes.map Node.id) edges err := by
  unfold build at h
  split at h
  · rename_i id hrepeat
    cases h
    obtain ⟨before, after, hids, hnodup, -, hid⟩ := firstRepeat?_eq_some hrepeat
    exact .repeated before id after hids hnodup (hid.resolve_left List.not_mem_nil)
  · rename_i hrepeat
    split at h
    · rename_i edge id hunknown
      cases h
      obtain ⟨before, e, after, hedges, hknown, rfl, he⟩ := firstUnknown?_eq_some hunknown
      rw [Nat.zero_add]
      exact .unknown before e after id (firstRepeat?_eq_none hrepeat).1 hedges hknown
        (Edge.unknownEnd?_eq_some_iff.1 he)
    · cases h

/-- The searches find the first offender: that for ids, or else that for ends. -/
theorem FirstOffender.found {ids : List String} {edges : List Edge} {err : GraphError}
    (h : FirstOffender ids edges err) :
    (∃ id, firstRepeat? [] ids = some id ∧ err = .duplicateNode id) ∨
      firstRepeat? [] ids = none ∧
        ∃ edge id, firstUnknown? ids 0 edges = some (edge, id) ∧ err = .unknownEndpoint edge id := by
  cases h with
  | repeated before id after hids hnodup hid =>
    refine .inl ⟨id, ?_, rfl⟩
    rw [hids]
    exact firstRepeat?_of_split hnodup (fun _ _ => List.not_mem_nil) (.inr hid) after
  | unknown before e after id hnodup hedges hknown hid =>
    refine .inr ⟨firstRepeat?_eq_none_of_nodup hnodup fun _ _ => List.not_mem_nil,
      before.length, id, ?_, rfl⟩
    rw [hedges, firstUnknown?_of_split hknown (Edge.unknownEnd?_eq_some_iff.2 hid), Nat.zero_add]

theorem build_eq_error_iff {nodes : List Node} {edges : List Edge} {err : GraphError} :
    build nodes edges = .error err ↔ FirstOffender (nodes.map Node.id) edges err := by
  refine ⟨firstOffender_of_build, fun h => ?_⟩
  rcases h.found with ⟨id, hrepeat, rfl⟩ | ⟨hrepeat, edge, id, hunknown, rfl⟩
  · unfold build
    split <;> simp_all
  · unfold build
    split
    · simp_all
    · split <;> simp_all

end Graph

end LogicWiring
