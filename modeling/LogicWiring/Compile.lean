-- From a graph to its program.
import LogicWiring.FanIn
import LogicWiring.Program

namespace LogicWiring

def compile (g : Graph) : Except CompileError Program := do
  let n := g.normalize.graph
  let order ← n.evaluationOrder
  let slots ← n.allocate order
  n.program order slots

end LogicWiring
