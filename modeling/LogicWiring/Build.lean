-- A build runs the stages on one graph and keeps what they leave behind. It
-- can be run again, for any stage, and starts each time with the first one.
import LogicWiring.Stage
import LogicWiring.Compile
import LogicWiring.Report

namespace LogicWiring

/-- The named obligations of a certificate. -/
def FanInCert.obligations (c : FanInCert) : List (String × Bool) :=
  [("N1_single_driver", c.singleDriver), ("N2_merges_consistent", c.mergesConsistent)]

def OrderCert.obligations (c : OrderCert) : List (String × Bool) :=
  [("O1_all_nodes_once", c.allNodesOnce), ("O2_edges_forward", c.edgesForward)]

def allPass (obligations : List (String × Bool)) : Bool := obligations.all (·.2)

/-- The names of the obligations that are not met. -/
def unmet (obligations : List (String × Bool)) : List String :=
  (obligations.filter fun o => !o.2).map (·.1)

/-- An error if an obligation is not met. -/
def certReport (obligations : List (String × Bool)) (what code : String) : List Diagnostic :=
  if allPass obligations then []
  else [.error code (what ++ " verification failed: " ++ ", ".intercalate (unmet obligations))]

/-! ## State -/

structure Build where
  graph : Graph
  normalized : Option Normalized := none
  fanInCert : Option FanInCert := none
  order : Option (List Nat) := none
  orderCert : Option OrderCert := none
  slots : Option SlotMap := none
  program : Option Program := none
  diagnostics : List Diagnostic := []
  hasError : Bool := false

namespace Build

/-- The graph that the stages after the first work on. -/
def workingGraph (b : Build) : Graph := b.normalized.elim b.graph Normalized.graph

/-! ## Stages -/

def runNormalize (b : Build) : Build × List Diagnostic :=
  let normalized := b.graph.normalize
  let cert := normalized.graph.fanInCert
  ({ b with normalized := some normalized, fanInCert := some cert },
    certReport cert.obligations "fan-in" "E0600")

/-- A failure leaves the old order in place. -/
def runOrder (b : Build) : Build × List Diagnostic :=
  match b.workingGraph.evaluationOrder with
  | .error e => (b, [e.report])
  | .ok order =>
    let cert := b.workingGraph.orderCert order
    ({ b with order := some order, orderCert := some cert },
      certReport cert.obligations "dependency order" "E0601")

def runAllocate (b : Build) (order : List Nat) : Build × List Diagnostic :=
  match b.workingGraph.allocate order with
  | .error e => (b, [e.report])
  | .ok slots => ({ b with slots := some slots }, [])

def runCodegen (b : Build) (order : List Nat) (slots : SlotMap) : Build × List Diagnostic :=
  match b.workingGraph.program order slots with
  | .error e => (b, [e.report])
  | .ok program => ({ b with program := some program }, [])

/-- The state after a stage and what it reports, or the artifact that it lacks. -/
def runStage (b : Build) : Stage → Except Artifact (Build × List Diagnostic)
  | .normalize => .ok b.runNormalize
  | .order => .ok b.runOrder
  | .allocate =>
    match b.order with
    | none => .error .order
    | some order => .ok (b.runAllocate order)
  | .codegen =>
    match b.order, b.slots with
    | none, _ => .error .order
    | some _, none => .error .slots
    | some order, some slots => .ok (b.runCodegen order slots)

/-! ## Runs -/

/-- How a run ends. -/
inductive Outcome
  | done
  | failed (stage : Stage)
  | lacking (artifact : Artifact)
  deriving DecidableEq, Repr

/-- The state after a run, what each stage reported, and how the run ended. -/
structure Run where
  build : Build
  reports : List (Stage × List Diagnostic)
  outcome : Outcome

/-- Keeps the diagnostics of a stage. -/
def note (b : Build) (ds : List Diagnostic) : Build :=
  { b with diagnostics := b.diagnostics ++ ds, hasError := b.hasError || ds.any (·.isError) }

/-- Runs stages one after the other, up to the first that reports an error. -/
def runStages (b : Build) : List Stage → Run
  | [] => { build := b, reports := [], outcome := .done }
  | stage :: rest =>
    match b.runStage stage with
    | .error artifact => { build := b, reports := [], outcome := .lacking artifact }
    | .ok (b, ds) =>
      if ds.any (·.isError) then
        { build := b.note ds, reports := [(stage, ds)], outcome := .failed stage }
      else
        let later := (b.note ds).runStages rest
        { later with reports := (stage, ds) :: later.reports }

/-- Runs all that is required for a stage. -/
def run (b : Build) (stage : Stage) : Run := b.runStages stage.required

end Build

end LogicWiring
