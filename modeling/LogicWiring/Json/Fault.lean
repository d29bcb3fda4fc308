-- What can be wrong with a JSON text, and lexemes under the two ways in
-- which they are read: kept for their value, or passed over.

namespace LogicWiring.Json

/-- A text can break the grammar, stop too early, or hold a value that is not the one
asked for. -/
inductive Fault
  | malformed | cutShort | mismatch
  deriving DecidableEq, Repr

def Fault.message : Fault → String
  | malformed => "malformed text"
  | cutShort => "unexpected end of text"
  | mismatch => "unexpected value"

/-- A lexeme. A reader that keeps it takes its value or the fault in it. A reader that
passes it over looks at its form alone, which can be right where there is no value. -/
structure Reading (α : Type) where
  value : Except Fault α
  formFault : Option Fault

/-- The fault of a reader that keeps the lexeme. -/
def Reading.valueFault {α : Type} (r : Reading α) : Option Fault :=
  match r.value with
  | .ok _ => none
  | .error f => some f

/-- What is wrong where something is missing: the text stops, or goes on with something else. -/
def missingBefore (rest : List Char) : Fault := if rest.isEmpty then .cutShort else .malformed

end LogicWiring.Json
