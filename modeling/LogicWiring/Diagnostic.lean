-- What the author is told: a message with a level, and where they help a
-- code, a hint, the node it is about and related nodes.

namespace LogicWiring

inductive Level
  | error | warning
  deriving DecidableEq, Repr

def Level.text : Level → String
  | error => "error"
  | warning => "warning"

structure Diagnostic where
  level : Level
  message : String
  code : Option String := none
  node : Option String := none
  hint : Option String := none
  related : List String := []
  deriving DecidableEq, Repr

namespace Diagnostic

def error (code message : String) : Diagnostic := { level := .error, message, code := some code }

def warning (code message : String) : Diagnostic :=
  { level := .warning, message, code := some code }

def isError (d : Diagnostic) : Bool := d.level = .error

/-- The message on one line, and the hint on a second one. -/
def text (d : Diagnostic) : String :=
  d.level.text ++ d.code.elim "" (fun c => "[" ++ c ++ "]") ++ ": " ++ d.message ++
    d.hint.elim "" (fun h => "\n  hint: " ++ h)

end Diagnostic

end LogicWiring
