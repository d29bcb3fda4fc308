-- A JSON text as a list of tokens. The list ends with the first token that
-- is broken, for no reader gets past it.
import LogicWiring.Json.Quoted
import LogicWiring.Json.Numeral

namespace LogicWiring.Json

inductive Token
  | openBracket | closeBracket | openBrace | closeBrace | comma | colon
  | null
  | flag (b : Bool)
  | number (r : Reading Numeral)
  | text (r : Reading String)
  | broken (f : Fault)

/-- The only characters that may stand between tokens. -/
def isSpace (c : Char) : Bool := c = ' ' || c = '\t' || c = '\n' || c = '\r'

def mark? : Char → Option Token
  | '[' => some .openBracket
  | ']' => some .closeBracket
  | '{' => some .openBrace
  | '}' => some .closeBrace
  | ',' => some .comma
  | ':' => some .colon
  | _ => none

/-- The words, each with the letter it starts with and the letters that follow. -/
def word? : Char → Option (List Char × Token)
  | 'n' => some (['u', 'l', 'l'], .null)
  | 't' => some (['r', 'u', 'e'], .flag true)
  | 'f' => some (['a', 'l', 's', 'e'], .flag false)
  | _ => none

/-- What stands after the letters, which have to come next. -/
def takeWord : List Char → List Char → Except Fault (List Char)
  | [], rest => .ok rest
  | _ :: _, [] => .error .cutShort
  | a :: letters, b :: rest => if a = b then takeWord letters rest else .error .malformed

theorem length_takeWord {letters cs rest : List Char} (h : takeWord letters cs = .ok rest) :
    rest.length ≤ cs.length := by
  fun_induction takeWord letters cs with
  | case1 =>
    cases h
    exact Nat.le_refl _
  | case2 => cases h
  | case3 letters a cs ih => exact Nat.le_succ_of_le (ih h)
  | case4 => cases h

def startsNumber (c : Char) : Bool := c = '-' || c.isDigit

def tokens (cs : List Char) : List Token :=
  match cs with
  | [] => []
  | c :: rest =>
    if isSpace c then tokens rest
    else
      match mark? c with
      | some t => t :: tokens rest
      | none =>
        if c = '"' then
          let string := pieces rest
          .text (readPieces string.1) :: tokens string.2
        else if startsNumber c then
          match _h : takeNumber (c :: rest) with
          | .ok (t, after) => .number ⟨t.value, none⟩ :: tokens after
          | .error f => [.number ⟨.error f, some .malformed⟩]
        else
          match word? c with
          | none => [.broken .malformed]
          | some (letters, t) =>
            match _h : takeWord letters rest with
            | .ok after => t :: tokens after
            | .error f => [.broken f]
termination_by cs.length
decreasing_by
  · exact Nat.lt_succ_self _
  · exact Nat.lt_succ_self _
  · exact Nat.lt_succ_of_le (length_pieces rest)
  · exact length_takeNumber ‹_›
  · exact Nat.lt_succ_of_le (length_takeWord ‹_›)

end LogicWiring.Json
