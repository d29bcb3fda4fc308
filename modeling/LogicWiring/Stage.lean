-- The stages of compilation, what each needs and gives, and what it promises.

namespace LogicWiring

inductive Stage
  | normalize | order | allocate | codegen
  deriving DecidableEq, Repr

/-- What a stage leaves behind. -/
inductive Artifact
  | normalized | fanInCert | order | orderCert | slots | program
  deriving DecidableEq, Repr

namespace Stage

/-- The stages in the order in which they run. -/
def all : List Stage := [normalize, order, allocate, codegen]

def name : Stage → String
  | normalize => "normalize"
  | order => "order"
  | allocate => "allocate"
  | codegen => "codegen"

def ofName? (s : String) : Option Stage := all.find? fun stage => stage.name = s

/-- The stages whose artifacts a stage uses. -/
def inputs : Stage → List Stage
  | normalize => []
  | order => [normalize]
  | allocate => [order]
  | codegen => [allocate]

def outputs : Stage → List Artifact
  | normalize => [.normalized, .fanInCert]
  | order => [.order, .orderCert]
  | allocate => [.slots]
  | codegen => [.program]

def invariants : Stage → String
  | normalize => "every (node, handle) and every output has at most one driver"
  | order => "every node once; every edge points forward"
  | allocate => "dense slots in dependency order, none for outputs"
  | codegen => "preamble then one instruction per live node"

/-- The stages to run for a stage, itself the last. -/
def required (s : Stage) : List Stage := all.takeWhile (· ≠ s) ++ [s]

end Stage

end LogicWiring
