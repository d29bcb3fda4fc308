-- Wiring graphs: nodes with unique ids and edges between them. Both lists
-- keep the author's order, which every later step builds on.
import LogicWiring.Node

namespace LogicWiring

/-- A wire from a handle of one node to a handle of another. -/
structure Edge where
  source : String
  sourceHandle : String := "out"
  target : String
  targetHandle : String := "in"
  deriving DecidableEq, Repr

def Edge.text (e : Edge) : String :=
  e.source ++ "." ++ e.sourceHandle ++ " -> " ++ e.target ++ "." ++ e.targetHandle

/-- An edge with its ends given as positions in the node list. -/
structure Link where
  source : Nat
  target : Nat
  handle : String
  deriving DecidableEq, Repr

def Edge.link (nodes : List Node) (e : Edge) : Link where
  source := nodes.findIdx (·.id == e.source)
  target := nodes.findIdx (·.id == e.target)
  handle := e.targetHandle

/-- Unique node ids, edges whose two ends are nodes, and the links of the edges. -/
structure Graph where
  nodes : List Node
  edges : List Edge
  links : List Link := edges.map (Edge.link nodes)
  ids_nodup : (nodes.map Node.id).Nodup
  ends_known : ∀ e ∈ edges, e.source ∈ nodes.map Node.id ∧ e.target ∈ nodes.map Node.id
  links_eq : links = edges.map (Edge.link nodes) := by rfl

/-! ## Building a graph -/

inductive GraphError
  | duplicateNode (id : String)
  | unknownEndpoint (edge : Nat) (node : String)
  deriving DecidableEq, Repr

def GraphError.message : GraphError → String
  | duplicateNode id => "duplicate node id '" ++ id ++ "'"
  | unknownEndpoint edge node =>
    "edge " ++ edge.repr ++ " references unknown node '" ++ node ++ "'"

/-- The first id that stands earlier in the list too, `seen` counted as earlier. -/
def firstRepeat? (seen : List String) : List String → Option String
  | [] => none
  | id :: rest => if id ∈ seen then some id else firstRepeat? (id :: seen) rest

theorem firstRepeat?_eq_none {seen ids : List String} (h : firstRepeat? seen ids = none) :
    ids.Nodup ∧ ∀ id ∈ ids, id ∉ seen := by
  induction ids generalizing seen with
  | nil => simp
  | cons id rest ih =>
    rw [firstRepeat?] at h
    split at h
    · simp at h
    · rename_i hid
      obtain ⟨hrest, hseen⟩ := ih h
      refine ⟨List.nodup_cons.2 ⟨fun hm => hseen id hm (by simp), hrest⟩, ?_⟩
      intro x hx
      rcases List.mem_cons.1 hx with rfl | hx
      · exact hid
      · exact fun hs => hseen x hx (by simp [hs])

/-- The first end of the edge, the source before the target, that is no node. -/
def Edge.unknownEnd? (ids : List String) (e : Edge) : Option String :=
  if e.source ∉ ids then some e.source
  else if e.target ∉ ids then some e.target
  else none

theorem Edge.unknownEnd?_eq_none {ids : List String} {e : Edge}
    (h : e.unknownEnd? ids = none) : e.source ∈ ids ∧ e.target ∈ ids := by
  unfold unknownEnd? at h
  split at h
  · simp at h
  · split at h
    · simp at h
    · simp_all

/-- The first edge with an end that is no node, by its number from `start` on, with that end. -/
def firstUnknown? (ids : List String) (start : Nat) : List Edge → Option (Nat × String)
  | [] => none
  | e :: rest =>
    match e.unknownEnd? ids with
    | some id => some (start, id)
    | none => firstUnknown? ids (start + 1) rest

theorem firstUnknown?_eq_none {ids : List String} {start : Nat} {edges : List Edge}
    (h : firstUnknown? ids start edges = none) :
    ∀ e ∈ edges, e.source ∈ ids ∧ e.target ∈ ids := by
  induction edges generalizing start with
  | nil => simp
  | cons e rest ih =>
    rw [firstUnknown?] at h
    split at h
    · simp at h
    · rename_i he
      intro x hx
      rcases List.mem_cons.1 hx with rfl | hx
      · exact Edge.unknownEnd?_eq_none he
      · exact ih h x hx

namespace Graph

/-- Repeated ids are reported before unknown ends, each by its first case. -/
def build (nodes : List Node) (edges : List Edge) : Except GraphError Graph :=
  match hd : firstRepeat? [] (nodes.map Node.id) with
  | some id => .error (.duplicateNode id)
  | none =>
    match hu : firstUnknown? (nodes.map Node.id) 0 edges with
    | some (edge, id) => .error (.unknownEndpoint edge id)
    | none => .ok {
        nodes, edges
        ids_nodup := (firstRepeat?_eq_none hd).1
        ends_known := firstUnknown?_eq_none hu }

/-! ## Looking around -/

def ids (g : Graph) : List String := g.nodes.map Node.id

def position? (g : Graph) (id : String) : Option Nat := g.nodes.findIdx? (·.id == id)

def contains (g : Graph) (id : String) : Bool := g.nodes.any (·.id == id)

/-- Whether the node with this id is a sink. -/
def isSink (g : Graph) (id : String) : Bool := g.nodes.any fun n => n.id == id && n.kind.isSink

/-- Whether the node at this position is a sink. -/
def isSinkAt (g : Graph) (i : Nat) : Bool := (g.nodes[i]?).any fun n => n.kind.isSink

/-- The id of the node at a position. -/
def idAt (g : Graph) (i : Nat) : String := (g.nodes[i]?).elim "" Node.id

/-- The targets of the edges that leave a node, in edge order. -/
def successors (g : Graph) (i : Nat) : List Nat :=
  g.links.filterMap fun l => if l.source = i then some l.target else none

/-- The links that end at a node, in edge order. -/
def linksInto (g : Graph) (i : Nat) : List Link := g.links.filter (·.target = i)

/-- The numbers of the edges that end at a node, in edge order. -/
def incoming (g : Graph) (i : Nat) : List Nat :=
  g.links.zipIdx.filterMap fun (l, edge) => if l.target = i then some edge else none

def inDegree (g : Graph) (i : Nat) : Nat := (g.linksInto i).length

end Graph

end LogicWiring
