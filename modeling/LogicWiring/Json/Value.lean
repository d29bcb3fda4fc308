-- Values to write, and their text without any space.

namespace LogicWiring.Json

inductive Value
  | flag (b : Bool)
  | natural (n : Nat)
  | text (s : String)
  | list (items : List Value)
  | record (members : List (String × Value))

/-! ## Strings -/

def hexDigit (n : Nat) : Char := Nat.digitChar n

/-- A character in a quoted string. Quotes, backslashes and control characters are
escaped, the common ones by a letter; all others stand for themselves. -/
def escapeChar (c : Char) : List Char :=
  if c = '"' then ['\\', '"']
  else if c = '\\' then ['\\', '\\']
  else if c = '\x08' then ['\\', 'b']
  else if c = '\x0c' then ['\\', 'f']
  else if c = '\n' then ['\\', 'n']
  else if c = '\r' then ['\\', 'r']
  else if c = '\t' then ['\\', 't']
  else if c.toNat < 0x20 then
    ['\\', 'u', '0', '0', hexDigit (c.toNat / 16), hexDigit (c.toNat % 16)]
  else [c]

def quoted (s : String) : String :=
  String.ofList ('"' :: s.toList.flatMap escapeChar ++ ['"'])

/-! ## Text -/

namespace Value

mutual

def render : Value → String
  | .flag b => if b then "true" else "false"
  | .natural n => n.repr
  | .text s => quoted s
  | .list items => "[" ++ ",".intercalate (renderItems items) ++ "]"
  | .record members => "\x7b" ++ ",".intercalate (renderMembers members) ++ "\x7d"

def renderItems : List Value → List String
  | [] => []
  | v :: rest => v.render :: renderItems rest

def renderMembers : List (String × Value) → List String
  | [] => []
  | (key, v) :: rest => (quoted key ++ ":" ++ v.render) :: renderMembers rest

end

/-- The members of a record on a line each, with two spaces before them, and a line break
at the end. -/
def renderLines (members : List (String × Value)) : String :=
  "\x7b\n" ++ ",\n".intercalate (members.map fun (key, v) =>
    "  " ++ quoted key ++ ": " ++ v.render) ++ "\n\x7d\n"

end Value

end LogicWiring.Json
