-- Quoted strings. A string is first cut into pieces, which is all that a
-- reader needs that passes it over. The pieces then give the characters,
-- where two escaped surrogates have to stand together.
import LogicWiring.Json.Fault

namespace LogicWiring.Json

/-- A piece of a quoted string: a character, the number of a unicode escape, or a fault,
with which the pieces end. -/
inductive Piece
  | char (c : Char)
  | unit (n : Nat)
  | fault (f : Fault)
  deriving DecidableEq, Repr

/-! ## Escapes -/

def hexDigit? (c : Char) : Option Nat :=
  if '0' ≤ c ∧ c ≤ '9' then some (c.toNat - '0'.toNat)
  else if 'a' ≤ c ∧ c ≤ 'f' then some (c.toNat - 'a'.toNat + 10)
  else if 'A' ≤ c ∧ c ≤ 'F' then some (c.toNat - 'A'.toNat + 10)
  else none

/-- The number of four hexadecimal digits. -/
def hexNumber? : List Char → Option Nat
  | [a, b, c, d] => do
    let a ← hexDigit? a
    let b ← hexDigit? b
    let c ← hexDigit? c
    let d ← hexDigit? d
    some (((a * 16 + b) * 16 + c) * 16 + d)
  | _ => none

def utf8Length : List Char → Nat
  | [] => 0
  | c :: rest => c.utf8Size + utf8Length rest

/-- The number after the letter of a unicode escape. The text stops too early if less
than four bytes of it are left. -/
def escapedUnit (rest : List Char) : Except Fault Nat :=
  if utf8Length (rest.take 4) < 4 then .error .cutShort
  else
    match hexNumber? (rest.take 4) with
    | some n => .ok n
    | none => .error .malformed

/-- The character that a letter after a backslash stands for. -/
def escapedChar? : Char → Option Char
  | '"' => some '"'
  | '\\' => some '\\'
  | '/' => some '/'
  | 'b' => some '\x08'
  | 'f' => some '\x0c'
  | 'n' => some '\n'
  | 'r' => some '\r'
  | 't' => some '\t'
  | _ => none

/-- The pieces of a string up to the quote that ends it, and what stands after the quote.
The text starts after the opening quote. -/
def pieces (cs : List Char) : List Piece × List Char :=
  match cs with
  | [] => ([.fault .cutShort], [])
  | c :: rest =>
    if c = '"' then ([], rest)
    else if c = '\\' then
      match rest with
      | [] => ([.fault .cutShort], [])
      | letter :: rest =>
        if letter = 'u' then
          match escapedUnit rest with
          | .error f => ([.fault f], [])
          | .ok n =>
            let (ps, after) := pieces (rest.drop 4)
            (.unit n :: ps, after)
        else
          match escapedChar? letter with
          | none => ([.fault .malformed], [])
          | some d =>
            let (ps, after) := pieces rest
            (.char d :: ps, after)
    else if c.toNat < 0x20 then ([.fault .malformed], [])
    else
      let (ps, after) := pieces rest
      (.char c :: ps, after)
termination_by cs.length
decreasing_by all_goals simp only [List.length_cons, List.length_drop]; omega

theorem length_pieces (cs : List Char) : (pieces cs).2.length ≤ cs.length := by
  fun_induction pieces cs <;> simp_all <;> omega

/-! ## Values -/

def isLeading (n : Nat) : Bool := 0xD800 ≤ n && n ≤ 0xDBFF

def isTrailing (n : Nat) : Bool := 0xDC00 ≤ n && n ≤ 0xDFFF

/-- The character of a leading and a trailing surrogate. -/
def surrogatePair (n m : Nat) : Char :=
  Char.ofNat (0x10000 + (n - 0xD800) * 0x400 + (m - 0xDC00))

/-- The characters of pieces. A surrogate without its partner breaks the string. -/
def pieceChars : List Piece → Except Fault (List Char)
  | [] => .ok []
  | .fault f :: _ => .error f
  | .char c :: rest => (pieceChars rest).map (c :: ·)
  | .unit n :: rest =>
    if isTrailing n then .error .malformed
    else if isLeading n then
      match rest with
      | .unit m :: rest =>
        if isTrailing m then (pieceChars rest).map (surrogatePair n m :: ·)
        else .error .malformed
      | .fault f :: _ => .error f
      | _ => .error .malformed
    else (pieceChars rest).map (Char.ofNat n :: ·)

def pieceFault? : Piece → Option Fault
  | .fault f => some f
  | _ => none

def readPieces (ps : List Piece) : Reading String where
  value := (pieceChars ps).map String.ofList
  formFault := ps.findSome? pieceFault?

end LogicWiring.Json
