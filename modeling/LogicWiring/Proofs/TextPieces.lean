-- Texts in pieces: pieces that each end in the same mark, and the numbers that
-- stand between the other characters of a text. Both can be read off the text
-- again. So can a numeral, also one with blanks around it.
import LogicWiring.Text.Blank
import LogicWiring.Text.Decimal
import Mathlib

namespace LogicWiring

/-! ## Pieces with a mark behind each -/

theorem splitOn_ended {α : Type} [DecidableEq α] {mark : α} {pieces : List (List α)}
    (h : ∀ piece ∈ pieces, mark ∉ piece) {rest : List α} (hrest : mark ∉ rest) :
    (pieces.flatMap (· ++ [mark]) ++ rest).splitOn mark = pieces ++ [rest] := by
  induction pieces with
  | nil => exact List.splitOn_eq_singleton hrest
  | cons piece pieces ih =>
    rw [List.forall_mem_cons] at h
    have hfirst : (piece :: pieces).flatMap (· ++ [mark]) ++ rest =
        piece ++ mark :: (pieces.flatMap (· ++ [mark]) ++ rest) := by simp
    rw [hfirst, List.splitOn_append_cons_self_of_not_mem h.1, ih h.2, List.cons_append]

/-! ## Pieces read one by one -/

theorem mapM_congr {m : Type → Type} [Monad m] [LawfulMonad m] {α β : Type} {f f' : α → m β}
    {as : List α} (h : ∀ a ∈ as, f a = f' a) : as.mapM f = as.mapM f' := by
  induction as with
  | nil => simp
  | cons a as ih =>
    rw [List.forall_mem_cons] at h
    rw [List.mapM_cons, List.mapM_cons, h.1, ih h.2]

/-- Pieces are read back as a whole if each of them is. -/
theorem mapM_map_eq_some {α β γ : Type} {write : α → β} {read : β → Option γ} {value : α → γ}
    {as : List α} (h : ∀ a ∈ as, read (write a) = some (value a)) :
    (as.map write).mapM read = some (as.map value) := by
  rw [List.mapM_map]
  exact (mapM_congr h).trans List.mapM_pure

/-! ## Numbers in a text -/

/-- The numbers that are written in a text, each a longest run of digits. -/
def numbersIn (cs : List Char) : List Nat :=
  ((cs.splitOnP fun c => !c.isDigit).filter (· ≠ [])).map fun ds => Nat.ofDigitChars 10 ds 0

/-- The characters do not go on with a number that stands before them. -/
def endsNumber (cs : List Char) : Bool := cs.head?.all fun c => !c.isDigit

@[simp] theorem endsNumber_nil : endsNumber [] = true := rfl

@[simp] theorem endsNumber_cons (c : Char) (rest : List Char) :
    endsNumber (c :: rest) = !c.isDigit := rfl

@[simp] theorem numbersIn_nil : numbersIn [] = [] := by
  simp [numbersIn, List.splitOnP_nil]

/-- A character that is no digit parts the numbers before it from those behind it. -/
theorem numbersIn_append_cons {c : Char} (hc : c.isDigit = false) (cs rest : List Char) :
    numbersIn (cs ++ c :: rest) = numbersIn cs ++ numbersIn rest := by
  unfold numbersIn
  rw [List.splitOnP_append_cons cs rest (by simp [hc]), List.filter_append, List.map_append]

@[simp] theorem numbersIn_cons {c : Char} (hc : c.isDigit = false) (rest : List Char) :
    numbersIn (c :: rest) = numbersIn rest := by
  simpa using numbersIn_append_cons hc [] rest

theorem numbersIn_append {rest : List Char} (h : endsNumber rest = true) (cs : List Char) :
    numbersIn (cs ++ rest) = numbersIn cs ++ numbersIn rest := by
  cases rest with
  | nil => simp
  | cons c rest =>
    have hc : c.isDigit = false := by simpa using h
    rw [numbersIn_append_cons hc, numbersIn_cons hc]

theorem numbersIn_word {word : List Char} (h : ∀ c ∈ word, c.isDigit = false) (rest : List Char) :
    numbersIn (word ++ rest) = numbersIn rest := by
  induction word with
  | nil => rfl
  | cons c word ih =>
    rw [List.forall_mem_cons] at h
    rw [List.cons_append, numbersIn_cons h.1, ih h.2]

theorem isDigit_of_mem_toDigits {c : Char} {n : Nat} (h : c ∈ Nat.toDigits 10 n) :
    c.isDigit = true :=
  Nat.isDigit_of_mem_toDigits (by decide) (by decide) h

@[simp] theorem numbersIn_toDigits (n : Nat) : numbersIn (Nat.toDigits 10 n) = [n] := by
  have hdigits : ∀ c ∈ Nat.toDigits 10 n, (!c.isDigit) = false := by
    intro c hc
    rw [isDigit_of_mem_toDigits hc]
    rfl
  have hne : Nat.toDigits 10 n ≠ [] := List.length_pos_iff.1 Nat.length_toDigits_pos
  unfold numbersIn
  rw [List.splitOnP_eq_singleton hdigits, List.filter_singleton]
  simp [hne, Nat.ofDigitChars_toDigits]

/-- A number that is written down is read again. -/
@[simp] theorem numbersIn_toDigits_append {rest : List Char} (h : endsNumber rest = true)
    (n : Nat) : numbersIn (Nat.toDigits 10 n ++ rest) = n :: numbersIn rest := by
  rw [numbersIn_append h, numbersIn_toDigits, List.singleton_append]

theorem not_mem_toDigits {c : Char} (hc : c.isDigit = false) (n : Nat) :
    c ∉ Nat.toDigits 10 n := by
  intro hmem
  rw [isDigit_of_mem_toDigits hmem] at hc
  cases hc

/-! ## Numerals -/

theorem natural?_toDigits (n : Nat) : Decimal.natural? (Nat.toDigits 10 n) = some n := by
  have hdigits : (Nat.toDigits 10 n).all Char.isDigit = true :=
    List.all_eq_true.2 fun c hc => isDigit_of_mem_toDigits hc
  unfold Decimal.natural?
  rw [if_pos ⟨Nat.toDigits_ne_nil, hdigits⟩, Nat.ofDigitChars_ten_toDigits]

theorem dropPlus_toDigits (n : Nat) : Decimal.dropPlus (Nat.toDigits 10 n) = Nat.toDigits 10 n := by
  have hplus : '+' ∉ Nat.toDigits 10 n := not_mem_toDigits rfl n
  unfold Decimal.dropPlus
  split
  · rename_i rest h
    exact absurd (h ▸ List.mem_cons_self) hplus
  · rfl

theorem word32?_repr (n : Nat) :
    Decimal.word32? n.repr = if n < UInt32.size then some (UInt32.ofNat n) else none := by
  unfold Decimal.word32?
  rw [Nat.toList_repr, dropPlus_toDigits, natural?_toDigits]

/-! ## Blanks around a text -/

theorem isBlank_eq_false_of_isDigit {c : Char} (h : c.isDigit = true) : isBlank c = false := by
  have hranges : ∀ r ∈ blankRanges, r.2 < '0'.toNat ∨ '9'.toNat < r.1 := by decide
  have hdigit := Char.isDigit_iff_toNat.1 h
  refine List.any_eq_false.2 fun r hr => ?_
  have := hranges r hr
  simp only [Bool.and_eq_true, decide_eq_true_eq]
  omega

theorem not_mem_blanks {c : Char} (hc : isBlank c = false) {blanks : List Char}
    (h : ∀ c ∈ blanks, isBlank c = true) : c ∉ blanks := by
  intro hmem
  rw [h c hmem] at hc
  cases hc

theorem dropWhile_isBlank {blanks : List Char} (h : ∀ c ∈ blanks, isBlank c = true) {c : Char}
    (hc : isBlank c = false) (rest : List Char) :
    (blanks ++ c :: rest).dropWhile isBlank = c :: rest := by
  rw [List.dropWhile_append_of_pos h, List.dropWhile_cons_of_neg (by simp [hc])]

/-- Trimming takes away the blanks around a text without any. -/
theorem trimChars_padded {before cs after : List Char} (hbefore : ∀ c ∈ before, isBlank c = true)
    (hafter : ∀ c ∈ after, isBlank c = true) (hne : cs ≠ []) (hcs : ∀ c ∈ cs, isBlank c = false) :
    trimChars (before ++ cs ++ after) = cs := by
  have hfront : (before ++ cs ++ after).dropWhile isBlank = cs ++ after := by
    obtain ⟨c, rest, rfl⟩ := List.exists_cons_of_ne_nil hne
    rw [List.append_assoc]
    exact dropWhile_isBlank hbefore (hcs c List.mem_cons_self) (rest ++ after)
  have hback : (after.reverse ++ cs.reverse).dropWhile isBlank = cs.reverse := by
    have hafter' : ∀ c ∈ after.reverse, isBlank c = true := fun c hc =>
      hafter c (List.mem_reverse.1 hc)
    obtain ⟨c, rest, hrest⟩ := List.exists_cons_of_ne_nil (mt List.reverse_eq_nil_iff.1 hne)
    rw [hrest]
    refine dropWhile_isBlank hafter' (hcs c (List.mem_reverse.1 ?_)) rest
    exact hrest ▸ List.mem_cons_self
  unfold trimChars
  rw [hfront, List.reverse_append, hback, List.reverse_reverse]

theorem trimBlank_numeral {before after : String} (hbefore : ∀ c ∈ before.toList, isBlank c = true)
    (hafter : ∀ c ∈ after.toList, isBlank c = true) (n : Nat) :
    trimBlank (before ++ n.repr ++ after) = n.repr := by
  have hdigits : ∀ c ∈ Nat.toDigits 10 n, isBlank c = false := fun c hc =>
    isBlank_eq_false_of_isDigit (isDigit_of_mem_toDigits hc)
  unfold trimBlank
  rw [String.toList_append, String.toList_append, Nat.toList_repr,
    trimChars_padded hbefore hafter Nat.toDigits_ne_nil hdigits, Nat.repr_eq_ofList_toDigits]

end LogicWiring
