-- The tables of a graph. Going through the nodes notes where each id stands,
-- and going through the edges turns their ends into positions and notes each
-- edge at the two nodes it joins. The tables hold what a look through the
-- lists gives, and lists that are no graph fail at their first offender.
import LogicWiring.Proofs.Building
import LogicWiring.Proofs.LookUps
import Mathlib

namespace LogicWiring

/-! ## Where the ids stand -/

/-- Notes where the id of each node stands, from `start` on, up to an id that is noted already. -/
def noteIds (index : Std.HashMap String Nat) (start : Nat) :
    List Node → Except GraphError (Std.HashMap String Nat)
  | [] => .ok index
  | n :: rest =>
    if n.id ∈ index then .error (.duplicateNode n.id)
    else noteIds (index.insert n.id start) (start + 1) rest

/-- The index has the positions of the ids of these nodes, and no other ids. -/
def Indexes (index : Std.HashMap String Nat) (nodes : List Node) : Prop :=
  ∀ id, index[id]? = nodes.findIdx? (·.id == id)

variable {index : Std.HashMap String Nat} {nodes : List Node}

theorem indexes_nil : Indexes ∅ [] := fun id => by simp

theorem Indexes.mem_iff (h : Indexes index nodes) {id : String} :
    id ∈ index ↔ id ∈ nodes.map Node.id := by
  rw [Std.HashMap.mem_iff_isSome_getElem?, h id, List.findIdx?_isSome, List.any_eq_true]
  simp only [beq_iff_eq, List.mem_map]

/-- One more node keeps the index right, as long as its id is new. -/
theorem Indexes.insert (h : Indexes index nodes) {n : Node} (hnew : n.id ∉ index) :
    Indexes (index.insert n.id nodes.length) (nodes ++ [n]) := by
  intro id
  rw [Std.HashMap.getElem?_insert, List.findIdx?_append, List.findIdx?_singleton, ← h id]
  by_cases hid : n.id = id
  · subst hid
    simp [Std.HashMap.getElem?_eq_none hnew]
  · simp [hid]

/-- Noting the rest of the nodes fails at the first id that is repeated, or else leaves the index
of all nodes. -/
theorem Indexes.noteIds_rest {seen : List String} (h : Indexes index nodes)
    (hseen : ∀ id, id ∈ seen ↔ id ∈ index) (rest : List Node) :
    match firstRepeat? seen (rest.map Node.id) with
    | some id => noteIds index nodes.length rest = .error (.duplicateNode id)
    | none => ∃ index', noteIds index nodes.length rest = .ok index' ∧
        Indexes index' (nodes ++ rest) := by
  -- The search keeps the ids in a list and the newest first, so only the members are compared.
  induction rest generalizing index nodes seen with
  | nil => exact ⟨index, rfl, by rwa [List.append_nil]⟩
  | cons n rest ih =>
    rw [List.map_cons, firstRepeat?, noteIds]
    by_cases hid : n.id ∈ index
    · rw [if_pos ((hseen _).2 hid), if_pos hid]
    · rw [if_neg (mt (hseen _).1 hid), if_neg hid]
      have hmore : ∀ id, id ∈ n.id :: seen ↔ id ∈ index.insert n.id nodes.length := by
        intro id
        rw [List.mem_cons, hseen, Std.HashMap.mem_insert, beq_iff_eq, eq_comm]
      simpa using ih (h.insert hid) hmore

theorem noteIds_start (nodes : List Node) :
    match firstRepeat? [] (nodes.map Node.id) with
    | some id => noteIds ∅ 0 nodes = .error (.duplicateNode id)
    | none => ∃ index, noteIds ∅ 0 nodes = .ok index ∧ Indexes index nodes :=
  indexes_nil.noteIds_rest (by simp) nodes

theorem noteIds_of_repeat {id : String} (h : firstRepeat? [] (nodes.map Node.id) = some id) :
    noteIds ∅ 0 nodes = .error (.duplicateNode id) := by
  have hstart := noteIds_start nodes
  rwa [h] at hstart

theorem noteIds_of_distinct (h : firstRepeat? [] (nodes.map Node.id) = none) :
    ∃ index, noteIds ∅ 0 nodes = .ok index ∧ Indexes index nodes := by
  have hstart := noteIds_start nodes
  rwa [h] at hstart

/-! ## Edges by positions -/

def positionIn (index : Std.HashMap String Nat) (edge : Nat) (id : String) :
    Except GraphError Nat :=
  match index[id]? with
  | some i => .ok i
  | none => .error (.unknownEndpoint edge id)

/-- The link of an edge, which is known by its number if an end is not found. -/
def linkIn (index : Std.HashMap String Nat) (edge : Nat) (e : Edge) : Except GraphError Link := do
  let source ← positionIn index edge e.source
  let target ← positionIn index edge e.target
  return { source, target, handle := e.targetHandle }

def linksIn (index : Std.HashMap String Nat) (start : Nat) :
    List Edge → Except GraphError (List Link)
  | [] => .ok []
  | e :: rest => do
    let l ← linkIn index start e
    let links ← linksIn index (start + 1) rest
    return l :: links

theorem Indexes.positionIn_of_mem (h : Indexes index nodes) {id : String}
    (hid : id ∈ nodes.map Node.id) (edge : Nat) :
    positionIn index edge id = .ok (nodes.findIdx (·.id == id)) := by
  have hi : index[id]? = some (nodes.findIdx (·.id == id)) :=
    (h id).trans (List.findIdx?_eq_some_iff_findIdx_eq.2 ⟨findIdx_id_lt hid, rfl⟩)
  rw [positionIn, hi]

theorem Indexes.positionIn_of_not_mem (h : Indexes index nodes) {id : String}
    (hid : id ∉ nodes.map Node.id) (edge : Nat) :
    positionIn index edge id = .error (.unknownEndpoint edge id) := by
  rw [positionIn, Std.HashMap.getElem?_eq_none (mt h.mem_iff.1 hid)]

/-- One edge has its link, or fails at its first end that is no node. -/
theorem Indexes.linkIn_eq (h : Indexes index nodes) (edge : Nat) (e : Edge) :
    linkIn index edge e =
      match e.unknownEnd? (nodes.map Node.id) with
      | some id => .error (.unknownEndpoint edge id)
      | none => .ok (e.link nodes) := by
  rw [linkIn, Edge.unknownEnd?]
  by_cases hsource : e.source ∈ nodes.map Node.id
  · rw [if_neg (not_not.2 hsource), h.positionIn_of_mem hsource]
    by_cases htarget : e.target ∈ nodes.map Node.id
    · rw [if_neg (not_not.2 htarget), h.positionIn_of_mem htarget]
      rfl
    · rw [if_pos htarget, h.positionIn_of_not_mem htarget]
      rfl
  · rw [if_pos hsource, h.positionIn_of_not_mem hsource]
    rfl

/-- All edges have their links, or the first of them with an end that is no node fails. -/
theorem Indexes.linksIn_eq (h : Indexes index nodes) (start : Nat) (edges : List Edge) :
    linksIn index start edges =
      match firstUnknown? (nodes.map Node.id) start edges with
      | some (edge, id) => .error (.unknownEndpoint edge id)
      | none => .ok (edges.map (Edge.link nodes)) := by
  induction edges generalizing start with
  | nil => rfl
  | cons e rest ih =>
    rw [linksIn, firstUnknown?, h.linkIn_eq, ih]
    cases e.unknownEnd? (nodes.map Node.id) with
    | some id => rfl
    | none => cases firstUnknown? (nodes.map Node.id) (start + 1) rest <;> rfl

/-! ## Edges at their nodes -/

/-- For each node the targets of the edges that leave it, and the numbers of those that end at it. -/
structure Adjacency where
  successors : List (List Nat)
  incoming : List (List Nat)
  deriving DecidableEq, Repr

namespace Adjacency

def note (a : Adjacency) (l : Link) (edge : Nat) : Adjacency where
  successors := a.successors.modify l.source (· ++ [l.target])
  incoming := a.incoming.modify l.target (· ++ [edge])

/-- Notes the links one after another in rows for so many nodes. -/
def ofLinks (size : Nat) (links : List Link) : Adjacency :=
  links.zipIdx.foldl (fun a (l, edge) => a.note l edge)
    { successors := List.replicate size [], incoming := List.replicate size [] }

/-- The links as they are found for one node after another. -/
def found (size : Nat) (links : List Link) : Adjacency where
  successors := (List.range size).map fun i => (links.filter (·.source = i)).map Link.target
  incoming := (List.range size).map fun i =>
    (links.zipIdx.filter (·.1.target = i)).map Prod.snd

/-- One row has one more entry at its end, and all others stay. -/
theorem modify_rows (size i x : Nat) (row : Nat → List Nat) :
    ((List.range size).map row).modify i (· ++ [x]) =
      (List.range size).map fun j => row j ++ if i = j then [x] else [] := by
  apply List.ext_getElem?
  intro j
  rw [List.getElem?_modify, List.getElem?_map, List.getElem?_map]
  by_cases hj : j < size
  · rw [List.getElem?_range hj]
    by_cases hij : i = j <;> simp [hij]
  · rw [List.getElem?_eq_none (by simpa using hj)]
    rfl

/-- One more link is noted in the row of its source and in the row of its target. -/
theorem found_append (size : Nat) (links : List Link) (l : Link) :
    found size (links ++ [l]) = (found size links).note l links.length := by
  have hsuccessors : ∀ i, ((links ++ [l]).filter (·.source = i)).map Link.target =
      (links.filter (·.source = i)).map Link.target ++ if l.source = i then [l.target] else [] := by
    intro i
    by_cases hi : l.source = i <;> simp [hi]
  have hincoming : ∀ i, ((links ++ [l]).zipIdx.filter (·.1.target = i)).map Prod.snd =
      (links.zipIdx.filter (·.1.target = i)).map Prod.snd ++
        if l.target = i then [links.length] else [] := by
    intro i
    rw [List.zipIdx_append]
    by_cases hi : l.target = i <;> simp [hi]
  simp only [found, note, modify_rows, hsuccessors, hincoming]

theorem ofLinks_eq_found (size : Nat) (links : List Link) : ofLinks size links = found size links := by
  -- A row grows at its end, so the last link is split off.
  induction links using List.reverseRecOn with
  | nil => simp [ofLinks, found]
  | append_singleton links l ih =>
    rw [found_append, ← ih, ofLinks, List.zipIdx_append, List.foldl_append]
    simp [ofLinks]

end Adjacency

/-- The rows that the links of a graph are noted in are the lists of its nodes. -/
theorem Graph.ofLinks_links (g : Graph) : Adjacency.ofLinks g.nodes.length g.links =
    { successors := (List.range g.nodes.length).map g.successors
      incoming := (List.range g.nodes.length).map g.incoming } := by
  rw [Adjacency.ofLinks_eq_found, Adjacency.found, funext g.successors_eq, funext g.incoming_eq]

/-! ## All tables -/

structure GraphTables where
  index : Std.HashMap String Nat
  links : List Link
  adjacency : Adjacency

namespace GraphTables

/-- The tables of some lists. Ids are noted before any edge is looked at. -/
def build (nodes : List Node) (edges : List Edge) : Except GraphError GraphTables := do
  let index ← noteIds ∅ 0 nodes
  let links ← linksIn index 0 edges
  return { index, links, adjacency := .ofLinks nodes.length links }

/-- The tables hold what the look-ups of the graph find. -/
structure Holds (t : GraphTables) (g : Graph) : Prop where
  position : ∀ id, t.index[id]? = g.position? id
  contains : ∀ id, t.index.contains id = g.contains id
  links : t.links = g.links
  successors : t.adjacency.successors = (List.range g.nodes.length).map g.successors
  incoming : t.adjacency.incoming = (List.range g.nodes.length).map g.incoming

theorem build_of_graph (g : Graph) : ∃ t, build g.nodes g.edges = .ok t ∧ t.Holds g := by
  have hunknown : firstUnknown? (g.nodes.map Node.id) 0 g.edges = none :=
    firstUnknown?_eq_none_of_known g.ends_known
  obtain ⟨index, hnote, hindex⟩ := noteIds_of_distinct
    (firstRepeat?_eq_none_of_nodup g.ids_nodup fun _ _ => List.not_mem_nil)
  have hlinks := hindex.linksIn_eq 0 g.edges
  rw [hunknown] at hlinks
  refine ⟨{ index, links := g.links, adjacency := .ofLinks g.nodes.length g.links }, ?_, ?_⟩
  · rw [build, hnote, g.links_eq]
    change (linksIn index 0 g.edges >>= _) = _
    rw [hlinks]
    rfl
  · rw [g.ofLinks_links]
    refine ⟨hindex, fun id => ?_, rfl, rfl, rfl⟩
    rw [Graph.contains_eq, Std.HashMap.contains_eq_isSome_getElem?, hindex id]
    rfl

/-- Noting fails at the first offender. -/
theorem build_of_firstOffender {nodes : List Node} {edges : List Edge} {err : GraphError}
    (h : Graph.FirstOffender (nodes.map Node.id) edges err) : build nodes edges = .error err := by
  rcases h.found with ⟨id, hrepeat, rfl⟩ | ⟨hrepeat, edge, id, hunknown, rfl⟩
  · rw [build, noteIds_of_repeat hrepeat]
    rfl
  · obtain ⟨index, hnote, hindex⟩ := noteIds_of_distinct hrepeat
    have hlinks := hindex.linksIn_eq 0 edges
    rw [hunknown] at hlinks
    rw [build, hnote]
    change (linksIn index 0 edges >>= _) = _
    rw [hlinks]
    rfl

theorem build_eq_error_iff {nodes : List Node} {edges : List Edge} {err : GraphError} :
    build nodes edges = .error err ↔ Graph.build nodes edges = .error err := by
  rw [Graph.build_eq_error_iff]
  refine ⟨fun h => ?_, build_of_firstOffender⟩
  cases hg : Graph.build nodes edges with
  | error err' =>
    have hoffender := Graph.firstOffender_of_build hg
    rw [build_of_firstOffender hoffender] at h
    cases h
    exact hoffender
  | ok g =>
    obtain ⟨rfl, rfl⟩ := Graph.build_eq_ok_iff.1 hg
    obtain ⟨t, ht, -⟩ := build_of_graph g
    rw [ht] at h
    cases h

end GraphTables

namespace Graph

/-! ## Lists and their graph -/

/-- Lists are those of a graph if all ids differ and all ends of edges are nodes, and all others
fail at their first offender. What is looked up in the graph tells the same as its lists, and the
tables hold just that. -/
theorem build_exact (nodes : List Node) (edges : List Edge) :
    ((∃ g, build nodes edges = .ok g) ↔
      (nodes.map Node.id).Nodup ∧ ∀ e ∈ edges, e.Known (nodes.map Node.id)) ∧
    (∀ err, build nodes edges = .error err ↔ FirstOffender (nodes.map Node.id) edges err) ∧
    (∀ err, GraphTables.build nodes edges = .error err ↔ build nodes edges = .error err) ∧
    ∀ g, build nodes edges = .ok g → g.nodes = nodes ∧ g.edges = edges ∧ g.Consistent ∧
      ∃ t, GraphTables.build nodes edges = .ok t ∧ t.Holds g := by
  refine ⟨exists_build_iff, fun err => build_eq_error_iff,
    fun err => GraphTables.build_eq_error_iff, fun g hg => ?_⟩
  obtain ⟨rfl, rfl⟩ := build_eq_ok_iff.1 hg
  exact ⟨rfl, rfl, g.consistent, GraphTables.build_of_graph g⟩

/-- An input drawn to a gate twice, and an output that leads back to the gate. -/
def returned : Graph where
  nodes := [{ id := "a", kind := .input (some 2) }, { id := "x", kind := .gate .and 3 },
    { id := "o", kind := .output (some 8) }]
  edges := [{ source := "a", target := "x", targetHandle := "in1" }, { source := "x", target := "o" },
    { source := "a", target := "x", targetHandle := "in0" },
    { source := "o", target := "x", targetHandle := "in2" }]
  ids_nodup := by decide
  ends_known := by decide

theorem returned_exact :
    (∃ g t, build returned.nodes returned.edges = .ok g ∧ g.Consistent ∧
      GraphTables.build returned.nodes returned.edges = .ok t ∧ t.index["o"]? = some 2 ∧
      t.links.map (fun l => (l.source, l.target)) = [(0, 1), (1, 2), (0, 1), (2, 1)] ∧
      t.adjacency.successors = [[1, 1], [2], [1]] ∧
      t.adjacency.incoming = [[], [0, 2, 3], [1]]) ∧
    let twice := returned.nodes ++ [{ id := "x", kind := .not }, { id := "a", kind := .not }]
    let stray := returned.edges ++ [{ source := "gone", target := "lost" }]
    build twice stray = .error (.duplicateNode "x") ∧
      build returned.nodes stray = .error (.unknownEndpoint 4 "gone") := by
  refine ⟨?_, ?_, ?_⟩
  · obtain ⟨-, -, hconsistent, t, ht, hholds⟩ :=
      (build_exact returned.nodes returned.edges).2.2.2 returned returned.build_self
    refine ⟨returned, t, returned.build_self, hconsistent, ht, ?_, ?_, ?_, ?_⟩
    · rw [hholds.position]
      decide
    · rw [hholds.links]
      decide
    · rw [hholds.successors]
      decide
    · rw [hholds.incoming]
      decide
  · exact ((build_exact _ _).2.1 _).2
      (.repeated ["a", "x", "o"] "x" ["a"] rfl (by decide) (by decide))
  · exact ((build_exact _ _).2.1 _).2
      (.unknown returned.edges _ [] "gone" (by decide) rfl returned.ends_known (by decide))

end Graph

end LogicWiring
