-- The order in which the nodes are evaluated: every node after all the nodes
-- it reads. Nodes are placed first in, first out: at the start the nodes
-- without drivers, in node order, and then each node when its last driver is
-- placed, in edge order.
import LogicWiring.Graph
import LogicWiring.CompileError

namespace LogicWiring

/-! ## Placing nodes -/

/-- `pending` counts for each node the edges from nodes that are not placed. Takes one
such edge off for each target, and gives the targets that have none left. -/
def release (pending : List Nat) : List Nat → List Nat × List Nat
  | [] => (pending, [])
  | t :: rest =>
    let left := pending[t]?.getD 0
    let (pending', ready) := release (pending.set t (left - 1)) rest
    (pending', if left = 1 then t :: ready else ready)

/-- The edges that are counted, over all nodes. -/
def counted : List Nat → Nat
  | [] => 0
  | k :: rest => k + counted rest

theorem counted_set_pred (pending : List Nat) (t : Nat) :
    counted (pending.set t (pending[t]?.getD 0 - 1)) + min 1 (pending[t]?.getD 0) =
      counted pending := by
  induction pending generalizing t with
  | nil => simp
  | cons k rest ih =>
    cases t with
    | zero =>
      simp only [List.getElem?_cons_zero, Option.getD_some, List.set_cons_zero, counted]
      omega
    | succ t =>
      have := ih t
      simp only [List.getElem?_cons_succ, List.set_cons_succ, counted]
      omega

theorem release_measure (pending targets : List Nat) :
    counted (release pending targets).1 + (release pending targets).2.length ≤ counted pending := by
  induction targets generalizing pending with
  | nil => simp [release]
  | cons t rest ih =>
    have h1 := ih (pending.set t (pending[t]?.getD 0 - 1))
    have h2 := counted_set_pred pending t
    simp only [release]
    split
    · rename_i hl
      rw [hl] at h1 h2 ⊢
      simp only [List.length_cons]
      omega
    · omega

namespace Graph

/-- Places the queue and all that becomes ready after it. Gives the placed nodes in
order, and what is pending at the end. -/
def place (g : Graph) (pending queue : List Nat) : List Nat × List Nat :=
  match queue with
  | [] => ([], pending)
  | i :: rest =>
    let released := release pending (g.successors i)
    let (placed, left) := g.place released.1 (rest ++ released.2)
    (i :: placed, left)
termination_by counted pending + queue.length
decreasing_by
  have := release_measure pending (g.successors i)
  simp only [List.length_append, List.length_cons]
  omega

def inDegrees (g : Graph) : List Nat := (List.range g.nodes.length).map g.inDegree

/-- The nodes that no edge ends at, in node order. -/
def roots (g : Graph) : List Nat := (List.range g.nodes.length).filter fun i => g.inDegree i = 0

/-- Fails with the nodes that could not be placed, in node order. -/
def evaluationOrder (g : Graph) : Except CompileError (List Nat) :=
  let (placed, left) := g.place g.inDegrees g.roots
  if placed.length < g.nodes.length then
    .error (.cycle (((List.range g.nodes.length).filter fun i => 0 < left[i]?.getD 0).map g.idAt))
  else .ok placed

/-- The ids of the nodes of an order. -/
def idsOf (g : Graph) (order : List Nat) : List String := order.map g.idAt

end Graph

/-! ## The check -/

/-- What is known about an order for a graph. -/
structure OrderCert where
  allNodesOnce : Bool
  edgesForward : Bool
  deriving DecidableEq, Repr

/-- Edges are looked at only in an order that holds every node once. -/
def Graph.orderCert (g : Graph) (order : List Nat) : OrderCert :=
  let once := order.length = g.nodes.length ∧ order.Nodup ∧ ∀ i ∈ order, i < g.nodes.length
  { allNodesOnce := once
    edgesForward := once ∧ ∀ l ∈ g.links, order.idxOf l.source < order.idxOf l.target }

end LogicWiring
