-- The boards and their analog pins. A board only matters while a project is
-- loaded: it names the pins behind labels such as A0.
import LogicWiring.Text.Blank
import LogicWiring.Text.Decimal

namespace LogicWiring

inductive Board
  | nano | uno | mega
  deriving DecidableEq, Repr

namespace Board

def all : List Board := [nano, uno, mega]

def name : Board → String
  | nano => "arduino_nano"
  | uno => "arduino_uno"
  | mega => "arduino_mega"

/-- The board of a name, blanks around it aside. -/
def ofName? (s : String) : Option Board := all.find? fun b => b.name = trimBlank s

/-- The number of the first analog pin. -/
def analogBase : Board → UInt32
  | nano | uno => 14
  | mega => 54

def analogCount : Board → UInt32
  | nano => 8
  | uno => 6
  | mega => 16

/-- The analog pins come last. -/
def pinCount (b : Board) : UInt32 := b.analogBase + b.analogCount

/-- The pin of an analog label: an A in either case and the number of an analog pin. -/
def analogPin? (b : Board) (label : String) : Option UInt32 :=
  match label.toList with
  | 'A' :: digits | 'a' :: digits =>
    match Decimal.word32? (String.ofList digits) with
    | some n => if n < b.analogCount then some (b.analogBase + n) else none
    | none => none
  | _ => none

end Board

end LogicWiring
