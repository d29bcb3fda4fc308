-- A JSON text as a tree. Every text has one: where the text breaks off, the
-- tree says so at that place. So a reader of trees meets the fault where a
-- reader of the text would.
import LogicWiring.Json.Token

namespace LogicWiring.Json

/-- An array or object that breaks off has the fault that follows what it holds. -/
inductive Tree
  | null
  | flag (b : Bool)
  | number (r : Reading Numeral)
  | text (r : Reading String)
  | array (items : List Tree) (broken : Option Fault)
  | object (members : List (Reading String × Tree)) (broken : Option Fault)
  | faulty (f : Fault)

/-! ## From tokens -/

/-- An array or object around the place of reading: what it holds so far, the last first,
and the key whose value is being read. -/
inductive Around
  | array (items : List Tree)
  | object (members : List (Reading String × Tree)) (key : Reading String)

/-- The tree of all that is around, where the text breaks off after `t`. -/
def breakOff (f : Fault) (t : Tree) : List Around → Tree
  | [] => t
  | .array items :: up => breakOff f (.array (t :: items).reverse (some f)) up
  | .object members key :: up => breakOff f (.object ((key, t) :: members).reverse (some f)) up

/-- What is wrong where a token is missing: the text stops, or goes on with something else. -/
def missingToken (rest : List Token) : Fault := if rest.isEmpty then .cutShort else .malformed

mutual

/-- The tree of a text that goes on with a value, and the tokens after it. -/
def readValue (up : List Around) : List Token → Tree × List Token
  | .null :: rest => readOn .null up rest
  | .flag b :: rest => readOn (.flag b) up rest
  | .number r :: rest => readOn (.number r) up rest
  | .text r :: rest => readOn (.text r) up rest
  | .openBracket :: .closeBracket :: rest => readOn (.array [] none) up rest
  | .openBracket :: rest => readValue (.array [] :: up) rest
  | .openBrace :: .closeBrace :: rest => readOn (.object [] none) up rest
  | .openBrace :: rest => readMember [] up rest
  | .broken f :: _ => (breakOff f (.faulty f) up, [])
  | rest => (breakOff (missingToken rest) (.faulty (missingToken rest)) up, [])

/-- The same for a text that goes on with a key of an object. -/
def readMember (members : List (Reading String × Tree)) (up : List Around) :
    List Token → Tree × List Token
  | .text key :: .colon :: rest => readValue (.object members key :: up) rest
  | .text key :: rest =>
    let f := missingToken rest
    (breakOff f (.faulty f) (.object members key :: up), [])
  | rest =>
    let f := missingToken rest
    (breakOff f (.object members.reverse (some f)) up, [])

/-- The same for a text that goes on after a value. -/
def readOn (t : Tree) (up : List Around) (rest : List Token) : Tree × List Token :=
  match up, rest with
  | [], rest => (t, rest)
  | .array items :: up, .comma :: rest => readValue (.array (t :: items) :: up) rest
  | .array items :: up, .closeBracket :: rest => readOn (.array (t :: items).reverse none) up rest
  | .object members key :: up, .comma :: rest => readMember ((key, t) :: members) up rest
  | .object members key :: up, .closeBrace :: rest =>
    readOn (.object ((key, t) :: members).reverse none) up rest
  | up, rest => (breakOff (missingToken rest) t up, [])

end

/-- The tree of a text, and whether anything follows it. -/
def treeOf (text : String) : Tree × Bool :=
  let (t, rest) := readValue [] (tokens text.toList)
  (t, !rest.isEmpty)

/-! ## Faults -/

namespace Tree

mutual

/-- The first fault in the form of a value that is passed over. -/
def formFault : Tree → Option Fault
  | .null | .flag _ => none
  | .number r => r.formFault
  | .text r => r.formFault
  | .array items broken => (itemsFormFault items).or broken
  | .object members broken => (membersFormFault members).or broken
  | .faulty f => some f

def itemsFormFault : List Tree → Option Fault
  | [] => none
  | t :: rest => t.formFault.or (itemsFormFault rest)

def membersFormFault : List (Reading String × Tree) → Option Fault
  | [] => none
  | (key, t) :: rest => key.formFault.or (t.formFault.or (membersFormFault rest))

end

mutual

/-- The first fault of a value that is kept whole, where arrays and objects may stand in
each other `depth` deep. -/
def valueFault (depth : Nat) : Tree → Option Fault
  | .null | .flag _ => none
  | .number r => r.valueFault
  | .text r => r.valueFault
  | .array items broken =>
    match depth with
    | 0 => some .malformed
    | depth + 1 => (itemsValueFault depth items).or broken
  | .object members broken =>
    match depth with
    | 0 => some .malformed
    | depth + 1 => (membersValueFault depth members).or broken
  | .faulty f => some f

def itemsValueFault (depth : Nat) : List Tree → Option Fault
  | [] => none
  | t :: rest => (t.valueFault depth).or (itemsValueFault depth rest)

def membersValueFault (depth : Nat) : List (Reading String × Tree) → Option Fault
  | [] => none
  | (key, t) :: rest =>
    key.valueFault.or ((t.valueFault depth).or (membersValueFault depth rest))

end

/-- The fault of a value where another kind of value is asked for. A number or a string
is read first, an array or an object is not. -/
def refusal : Tree → Fault
  | .number r => r.valueFault.getD .mismatch
  | .text r => r.valueFault.getD .mismatch
  | .faulty f => f
  | _ => .mismatch

end Tree

end LogicWiring.Json
