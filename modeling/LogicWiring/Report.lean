-- The diagnostic of each failure.
import LogicWiring.Project
import LogicWiring.CompileError
import LogicWiring.Frame

namespace LogicWiring

def GraphError.report (e : GraphError) : Diagnostic :=
  match e with
  | duplicateNode id => { Diagnostic.error "E0005" e.message with node := id }
  | unknownEndpoint _ node =>
    { Diagnostic.error "E0006" e.message with
      node := node
      hint := "remove the edge or restore the node it points to" }

def LoadError.report (e : LoadError) : Diagnostic :=
  match e with
  | json _ => Diagnostic.error "E0001" e.message
  | unknownNodeType node _ => { Diagnostic.error "E0002" e.message with node := node }
  | invalidPin node _ =>
    { Diagnostic.error "E0003" e.message with
      node := node
      hint := "use a pin number, or an analog label such as A0 with a known board" }
  | invalidOperator node _ =>
    { Diagnostic.error "E0004" e.message with
      node := node
      hint := "expected one of >, >=, <, <=, ==, !=" }
  | graph error => error.report

/-- A cycle is reported at the first node it holds back; the others are related. -/
def CompileError.report (e : CompileError) : Diagnostic :=
  match e with
  | cycle unplaced =>
    { Diagnostic.error "E0100" e.message with
      node := unplaced.head?
      hint := "break the feedback loop; every value must be computed from earlier values"
      related := unplaced.tail }
  | operandRange node _ _ _ => { Diagnostic.error "E0200" e.message with node := node }
  | slotOverflow _ _ =>
    { Diagnostic.error "E0201" e.message with
      hint := "split the project; the firmware addresses one byte of slots" }

def FrameError.report (e : FrameError) : Diagnostic := Diagnostic.error "E0300" e.message

end LogicWiring
