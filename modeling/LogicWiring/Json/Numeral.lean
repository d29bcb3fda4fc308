-- Numbers. The only values asked for are natural numbers below 2^64. All
-- other numbers are told apart only as far as they are finite as doubles.
import LogicWiring.Json.Fault

namespace LogicWiring.Json

/-- The parts of a number: its sign, the digits before the point, those after it (none
if there is no point), and the sign and digits of its exponent. -/
structure NumberText where
  negative : Bool
  whole : List Char
  fraction : List Char
  exponent : Option (Bool × List Char)
  deriving DecidableEq, Repr

/-! ## Form -/

/-- Takes one of the characters if it stands in front. -/
def takeSign (signs : List Char) : List Char → Option Char × List Char
  | [] => (none, [])
  | c :: rest => if c ∈ signs then (some c, rest) else (none, c :: rest)

/-- The digits in front, at least one of them. -/
def takeDigits (cs : List Char) : Except Fault (List Char × List Char) :=
  let digits := cs.takeWhile Char.isDigit
  let rest := cs.dropWhile Char.isDigit
  if digits.isEmpty then .error (missingBefore rest) else .ok (digits, rest)

/-- The digits before the point: a zero in front stands alone. -/
def takeWhole (cs : List Char) : Except Fault (List Char × List Char) := do
  let (digits, rest) ← takeDigits cs
  if digits.head? = some '0' ∧ digits.length ≠ 1 then .error .malformed
  else .ok (digits, rest)

def takeFraction : List Char → Except Fault (List Char × List Char)
  | '.' :: rest => takeDigits rest
  | cs => .ok ([], cs)

def takeExponent (cs : List Char) : Except Fault (Option (Bool × List Char) × List Char) :=
  match takeSign ['e', 'E'] cs with
  | (none, rest) => .ok (none, rest)
  | (some _, rest) => do
    let (sign, rest) := takeSign ['+', '-'] rest
    let (digits, rest) ← takeDigits rest
    .ok (some (sign = some '-', digits), rest)

/-- The number in front of a text, and what stands after it. -/
def takeNumber (cs : List Char) : Except Fault (NumberText × List Char) := do
  let (sign, rest) := takeSign ['-'] cs
  let (whole, rest) ← takeWhole rest
  let (fraction, rest) ← takeFraction rest
  let (exponent, rest) ← takeExponent rest
  .ok ({ negative := sign.isSome, whole, fraction, exponent }, rest)

theorem length_takeSign (signs cs : List Char) : (takeSign signs cs).2.length ≤ cs.length := by
  fun_cases takeSign signs cs <;> simp

theorem length_takeDigits {cs digits rest : List Char} (h : takeDigits cs = .ok (digits, rest)) :
    rest.length < cs.length := by
  simp only [takeDigits] at h
  split at h
  · simp at h
  · rename_i hne
    simp only [Except.ok.injEq, Prod.mk.injEq] at h
    have hl := congrArg List.length (List.takeWhile_append_dropWhile (p := Char.isDigit) (l := cs))
    rw [List.length_append, h.1, h.2] at hl
    rw [h.1] at hne
    cases digits with
    | nil => simp at hne
    | cons d ds =>
      simp only [List.length_cons] at hl
      omega

theorem length_takeWhole {cs digits rest : List Char} (h : takeWhole cs = .ok (digits, rest)) :
    rest.length < cs.length := by
  unfold takeWhole at h
  cases hd : takeDigits cs with
  | error f => simp [hd, bind, Except.bind] at h
  | ok p =>
    simp only [hd, bind, Except.bind] at h
    split at h
    · simp at h
    · simp only [Except.ok.injEq] at h
      have hp : p = (digits, rest) := h
      exact length_takeDigits (hp ▸ hd)

theorem length_takeFraction {cs digits rest : List Char}
    (h : takeFraction cs = .ok (digits, rest)) : rest.length ≤ cs.length := by
  unfold takeFraction at h
  split at h
  · have := length_takeDigits h
    simp only [List.length_cons]
    omega
  · simp only [Except.ok.injEq, Prod.mk.injEq] at h
    simp [h.2]

theorem length_takeExponent {cs rest : List Char} {e : Option (Bool × List Char)}
    (h : takeExponent cs = .ok (e, rest)) : rest.length ≤ cs.length := by
  have hsign := length_takeSign ['e', 'E'] cs
  unfold takeExponent at h
  split at h
  · rename_i after heq
    simp only [Except.ok.injEq, Prod.mk.injEq] at h
    rw [heq] at hsign
    simpa [h.2] using hsign
  · rename_i after heq
    rw [heq] at hsign
    have hsign' := length_takeSign ['+', '-'] after
    cases hd : takeDigits (takeSign ['+', '-'] after).2 with
    | error f => simp [hd, bind, Except.bind] at h
    | ok p =>
      simp only [hd, bind, Except.bind, Except.ok.injEq, Prod.mk.injEq] at h
      have hp : takeDigits (takeSign ['+', '-'] after).2 = .ok (p.1, p.2) := hd
      have := length_takeDigits hp
      rw [← h.2]
      simp only at hsign
      omega

theorem length_takeNumber {cs rest : List Char} {t : NumberText}
    (h : takeNumber cs = .ok (t, rest)) : rest.length < cs.length := by
  have hsign := length_takeSign ['-'] cs
  simp only [takeNumber, bind, Except.bind] at h
  cases hw : takeWhole (takeSign ['-'] cs).2 with
  | error f => simp [hw] at h
  | ok w =>
    simp only [hw] at h
    cases hf : takeFraction w.2 with
    | error f => simp [hf] at h
    | ok fr =>
      simp only [hf] at h
      cases he : takeExponent fr.2 with
      | error f => simp [he] at h
      | ok e =>
        simp only [he, Except.ok.injEq, Prod.mk.injEq] at h
        have hw' : takeWhole (takeSign ['-'] cs).2 = .ok (w.1, w.2) := hw
        have hf' : takeFraction w.2 = .ok (fr.1, fr.2) := hf
        have he' : takeExponent fr.2 = .ok (e.1, e.2) := he
        have h1 := length_takeWhole hw'
        have h2 := length_takeFraction hf'
        have h3 := length_takeExponent he'
        rw [← h.2]
        omega

/-! ## Value -/

/-- The value of a number where it matters. -/
inductive Numeral
  | natural (n : UInt64)
  | other
  deriving DecidableEq, Repr

def digitValue (c : Char) : Nat := c.toNat - '0'.toNat

/-- Appends digits to a number as long as it stays below 2^64. Gives the number and how
many digits it took. -/
def appendDigits (n : Nat) : List Char → Nat × Nat
  | [] => (n, 0)
  | d :: rest =>
    if 10 * n + digitValue d < UInt64.size then
      let (m, taken) := appendDigits (10 * n + digitValue d) rest
      (m, taken + 1)
    else (n, 0)

/-- The nearest number with at most 53 significant bits, the even one of two. -/
def roundTo53 (n : Nat) : Nat :=
  if n < 1 <<< 53 then n
  else
    let unit := 1 <<< (Nat.log2 n - 52)
    let q := n / unit
    let r := n % unit
    if 2 * r > unit ∨ (2 * r = unit ∧ q % 2 = 1) then (q + 1) * unit else q * unit

namespace NumberText

/-- The digits that count as one number below 2^64, and the power of ten beside it. Digits
that do not count before the point raise the power, those after it are dropped. -/
def scaled (t : NumberText) : Nat × Int :=
  let (n, inWhole) := appendDigits 0 t.whole
  let (n, inFraction) := appendDigits n t.fraction
  let exponent : Int :=
    match t.exponent with
    | none => 0
    | some (true, digits) => -(Nat.ofDigitChars 10 digits 0 : Nat)
    | some (false, digits) => (Nat.ofDigitChars 10 digits 0 : Nat)
  (n, (t.whole.length : Int) - inWhole - inFraction + exponent)

/-- Whether the product of the digits and the power of ten, each rounded to a double, is
too large for a double. -/
def overflows (t : NumberText) : Bool :=
  let (n, power) := t.scaled
  n ≠ 0 && 0 ≤ power &&
    (308 < power || 1 <<< 1024 - 1 <<< 970 ≤ roundTo53 n * roundTo53 (Nat.pow 10 power.toNat))

def value (t : NumberText) : Except Fault Numeral :=
  let n := Nat.ofDigitChars 10 t.whole 0
  if !t.negative && t.fraction.isEmpty && t.exponent.isNone && n < UInt64.size then
    .ok (.natural (UInt64.ofNat n))
  else if t.overflows then .error .malformed
  else .ok .other

end NumberText

end LogicWiring.Json
