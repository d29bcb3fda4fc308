-- Which nodes matter: a node is live when its value can reach a pin, or a
-- node that nothing reads. And which inputs have to be read as analog values.
import LogicWiring.Graph

namespace LogicWiring.Graph

/-- Whether the node is live, given the verdicts on the nodes that read it: an output if
it has a pin, an input without a pin never, any other node if nothing reads it or a node
that reads it is live. -/
def isLive (g : Graph) (live : List Bool) (i : Nat) : Bool :=
  match (g.nodes[i]?).map Node.kind with
  | none => false
  | some (.output pin) => pin.isSome
  | some (.input none) => false
  | some _ =>
    let readers := g.successors i
    readers.isEmpty || readers.any fun j => live[j]?.getD false

/-- The verdict on each node by position, found from the end of an order to its start.
Nodes that are not in the order are dead. -/
def liveness (g : Graph) (order : List Nat) : List Bool :=
  order.foldr (fun i live => live.set i (g.isLive live i)) (List.replicate g.nodes.length false)

/-! ## Analog inputs -/

def isAnalogAt (g : Graph) (i : Nat) : Bool := (g.nodes[i]?).any fun n => n.kind.isAnalog

/-- Whether an analog node comes after a node of the stack, where only the nodes of
`unseen` are still looked into. -/
def searchForAnalog (g : Graph) (unseen stack : List Nat) : Bool :=
  match stack with
  | [] => false
  | i :: rest =>
    if i ∈ unseen then
      let next := g.successors i
      next.any g.isAnalogAt || g.searchForAnalog (unseen.erase i) (next ++ rest)
    else g.searchForAnalog unseen rest
termination_by (unseen.length, stack.length)
decreasing_by
  · have := List.length_pos_of_mem ‹i ∈ unseen›
    apply Prod.Lex.left
    rw [List.length_erase_of_mem ‹i ∈ unseen›]
    omega
  · apply Prod.Lex.right
    simp

/-- Whether an analog node can be reached from a node over one or more edges. -/
def feedsAnalog (g : Graph) (i : Nat) : Bool :=
  g.searchForAnalog (List.range g.nodes.length) [i]

end LogicWiring.Graph
