-- From a project document to its graph. The nodes are taken in document
-- order, each checked for its type and settings; then the graph is built.
import LogicWiring.Graph
import LogicWiring.Board
import LogicWiring.Diagnostic
import LogicWiring.Document.Reader

namespace LogicWiring

inductive LoadError
  | json (fault : Json.Fault)
  | unknownNodeType (node type : String)
  | invalidPin (node pin : String)
  | invalidOperator (node operator : String)
  | graph (error : GraphError)
  deriving DecidableEq, Repr

def LoadError.message : LoadError → String
  | json fault => "invalid project JSON: " ++ fault.message
  | unknownNodeType node type => "node '" ++ node ++ "' has unknown type '" ++ type ++ "'"
  | invalidPin node pin => "node '" ++ node ++ "' has invalid pin '" ++ pin ++ "'"
  | invalidOperator node operator =>
    "node '" ++ node ++ "' has unknown comparison operator '" ++ operator ++ "'"
  | graph error => error.message

/-! ## Nodes -/

/-- The pin of a node. A label that is blank is no pin; else it names a number, or an
analog pin of the board. -/
def resolvePin (board : Option Board) (node : String) :
    Option PinSetting → Except LoadError (Option UInt32)
  | none => .ok none
  | some (.number n) =>
    if n.toNat < UInt32.size then .ok (some n.toUInt32)
    else .error (.invalidPin node n.toNat.repr)
  | some (.label s) =>
    let label := trimBlank s
    if label = "" then .ok none
    else
      match Decimal.word32? label with
      | some n => .ok (some n)
      | none =>
        match board.bind (·.analogPin? label) with
        | some n => .ok (some n)
        | none => .error (.invalidPin node label)

def resolveComparator (node : String) : Option String → Except LoadError Comparator
  | none => .ok .gt
  | some s =>
    match Comparator.ofSymbol? s with
    | some c => .ok c
    | none => .error (.invalidOperator node s)

/-- The kind of a node, with the usual values for settings that are not given. -/
def NodeEntry.kind (board : Option Board) (n : NodeEntry) : Except LoadError NodeKind :=
  let s := n.settings
  let gate (op : GateOp) : NodeKind := .gate op (s.inputs.getD 2)
  let pulse : NodeKind := .pulse (s.pulseMs.getD 500) (s.intervalMs.getD 1000)
  let initial := s.initialState.elim 0 InitialSetting.value
  match n.type with
  | "inputNode" => (resolvePin board n.id s.pin).map .input
  | "outputNode" => (resolvePin board n.id s.pin).map .output
  | "andNode" => .ok (gate .and)
  | "orNode" => .ok (gate .or)
  | "nandNode" => .ok (gate .nand)
  | "norNode" => .ok (gate .nor)
  | "xorNode" => .ok (gate .xor)
  | "notNode" => .ok .not
  | "latchNode" => .ok (.latch (initial ≠ 0))
  | "pulseNode" => .ok pulse
  | "timerNode" => .ok pulse
  | "toggleNode" => .ok (.toggle (initial ≠ 0))
  | "analogRangeNode" => .ok (.range (s.min.getD 0) (s.max.getD 1023))
  | "analogCompareNode" => (resolveComparator n.id s.operator).map .compare
  | "shiftRegisterNode" => .ok (.shift (s.outputWidth.getD 8) initial)
  | type => .error (.unknownNodeType n.id type)

def NodeEntry.toNode (board : Option Board) (n : NodeEntry) : Except LoadError Node :=
  (n.kind board).map fun kind => { id := n.id, kind }

def EdgeEntry.toEdge (e : EdgeEntry) : Edge where
  source := e.source
  sourceHandle := e.sourceHandle
  target := e.target
  targetHandle := e.targetHandle

/-! ## Boards -/

/-- A chosen board name goes before the one in the document. -/
def Document.boardName (d : Document) (chosen : Option String) : Option String :=
  chosen.or d.board

/-- A name that no board has is worth a warning. -/
def boardWarnings (name : Option String) : List Diagnostic :=
  match name with
  | none => []
  | some s =>
    match Board.ofName? s with
    | some _ => []
    | none =>
      [.warning "W0001" ("unknown board '" ++ s ++ "'; pin labels will not be resolved")]

/-- So is a pin that the board does not have. -/
def pinWarning? (board : Board) (n : Node) : Option Diagnostic :=
  match n.kind.pin with
  | none => none
  | some pin =>
    if board.pinCount ≤ pin then
      some { Diagnostic.warning "W0002"
        ("pin " ++ pin.toNat.repr ++ " does not exist on " ++ board.name) with node := n.id }
    else none

/-! ## Loading -/

structure Project where
  graph : Graph
  board : Option Board
  warnings : List Diagnostic

/-- Errors of nodes are reported before errors of the graph. -/
def Document.toProject (d : Document) (chosen : Option String) : Except LoadError Project := do
  let name := d.boardName chosen
  let board := name.bind Board.ofName?
  let nodes ← d.nodes.mapM (NodeEntry.toNode board)
  let graph ← (Graph.build nodes (d.edges.map EdgeEntry.toEdge)).mapError .graph
  return {
    graph, board
    warnings := boardWarnings name ++ board.elim [] fun b => nodes.filterMap (pinWarning? b) }

/-- The project that a text holds, for the chosen board if there is one. -/
def loadProject (text : String) (chosen : Option String) : Except LoadError Project := do
  let d ← (Document.ofText text).mapError .json
  d.toProject chosen

end LogicWiring
