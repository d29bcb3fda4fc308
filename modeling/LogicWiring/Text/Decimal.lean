-- Decimal numerals: their value, the 32-bit numbers that a text may name,
-- and numerals filled up to a width.

namespace LogicWiring.Decimal

/-- The number that a run of digits names, the most significant digit first.
Only the ten ASCII digits count, and an empty run names no number. -/
def natural? (cs : List Char) : Option Nat :=
  if cs ≠ [] ∧ cs.all Char.isDigit then some (Nat.ofDigitChars 10 cs 0) else none

/-- One plus sign may stand before the digits. -/
def dropPlus : List Char → List Char
  | '+' :: rest => rest
  | cs => cs

/-- The 32-bit number that a text names: digits, with any number of leading
zeros, after at most one plus sign. -/
def word32? (s : String) : Option UInt32 :=
  match natural? (dropPlus s.toList) with
  | some n => if n < UInt32.size then some (UInt32.ofNat n) else none
  | none => none

/-- The numeral of `n`, with zeros on the left up to `width` characters. -/
def padded (width n : Nat) : String :=
  String.ofList ((Nat.toDigits 10 n).leftpad width '0')

end LogicWiring.Decimal
