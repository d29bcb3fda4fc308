-- How tokens are spelled. A grammar says which characters make up a number, a
-- string or a word, and that tokens stand in a row with any space around
-- them. Main statements: characters that are spelled so fall apart into these
-- tokens (`tokens_of_spaced`), and characters that fall apart into tokens that
-- can be read are spelled so (`spaced_tokens`).
import LogicWiring.Json.Token
import Mathlib.Data.List.Chain

namespace LogicWiring.Json

/-! ## Digits -/

def Digits (cs : List Char) : Prop := cs ≠ [] ∧ ∀ c ∈ cs, c.isDigit = true

def NoDigit (rest : List Char) : Prop := ∀ c ∈ rest.head?, c.isDigit = false

theorem takeDigits_append {digits rest : List Char} (h : Digits digits) (hrest : NoDigit rest) :
    takeDigits (digits ++ rest) = .ok (digits, rest) := by
  have hstop : rest.takeWhile Char.isDigit = [] ∧ rest.dropWhile Char.isDigit = rest := by
    cases rest with
    | nil => exact ⟨rfl, rfl⟩
    | cons c rest =>
      have hc : c.isDigit = false := hrest c rfl
      exact ⟨by rw [List.takeWhile_cons_of_neg (by simp [hc])],
        by rw [List.dropWhile_cons_of_neg (by simp [hc])]⟩
  unfold takeDigits
  rw [List.takeWhile_append_of_pos h.2, List.dropWhile_append_of_pos h.2, hstop.1, hstop.2,
    List.append_nil]
  simp [h.1]

theorem digits_of_takeDigits {cs digits rest : List Char} (h : takeDigits cs = .ok (digits, rest)) :
    Digits digits ∧ cs = digits ++ rest := by
  simp only [takeDigits] at h
  split at h
  · cases h
  · rename_i hne
    cases h
    refine ⟨⟨by simpa using hne, fun c hc => ?_⟩, List.takeWhile_append_dropWhile.symm⟩
    exact List.all_eq_true.1 List.all_takeWhile c hc

theorem Digits.exists_cons {digits : List Char} (h : Digits digits) :
    ∃ d ds, digits = d :: ds ∧ d.isDigit = true := by
  obtain ⟨d, ds, rfl⟩ := List.exists_cons_of_ne_nil h.1
  exact ⟨d, ds, rfl, h.2 d (List.mem_cons_self ..)⟩

/-- A digit can only be the start of a number. -/
theorem starts_of_isDigit {c : Char} (h : c.isDigit = true) :
    isSpace c = false ∧ mark? c = none ∧ c ≠ '"' ∧ c ≠ '-' ∧ startsNumber c = true := by
  have hall : ∀ k < 10, isSpace (Nat.digitChar k) = false ∧ mark? (Nat.digitChar k) = none ∧
      Nat.digitChar k ≠ '"' ∧ Nat.digitChar k ≠ '-' ∧ startsNumber (Nat.digitChar k) = true := by
    decide
  have hrange : 48 ≤ c.toNat ∧ c.toNat ≤ 57 := by
    simpa [Char.isDigit, Char.le_def, UInt32.le_iff_toNat_le] using h
  have hc : Nat.digitChar (c.toNat - 48) = c := by
    apply Char.toNat_inj.1
    rw [Nat.toNat_digitChar_of_lt_ten (by omega)]
    omega
  exact hc ▸ hall (c.toNat - 48) (by omega)

/-! ## Numbers -/

/-- The digits after the point, and how they are spelled with it. -/
inductive SpelledFraction : List Char → List Char → Prop
  | absent : SpelledFraction [] []
  | present {digits : List Char} (h : Digits digits) : SpelledFraction digits ('.' :: digits)

/-- Whether an exponent is negative and its digits, and how it is spelled. -/
inductive SpelledExponent : Option (Bool × List Char) → List Char → Prop
  | absent : SpelledExponent none []
  | present {e : Char} {sign : Option Char} {digits : List Char} (he : e ∈ ['e', 'E'])
    (hsign : ∀ c ∈ sign, c ∈ ['+', '-']) (h : Digits digits) :
    SpelledExponent (some (sign = some '-', digits)) (e :: (sign.toList ++ digits))

/-- A number. A zero in front stands alone. -/
inductive SpelledNumber : NumberText → List Char → Prop
  | intro {sign : Option Char} {whole fraction fs es : List Char}
    {exponent : Option (Bool × List Char)} (hsign : ∀ c ∈ sign, c ∈ ['-']) (hwhole : Digits whole)
    (hzero : whole.head? = some '0' → whole.length = 1) (hfraction : SpelledFraction fraction fs)
    (hexponent : SpelledExponent exponent es) :
    SpelledNumber { negative := sign.isSome, whole, fraction, exponent }
      (sign.toList ++ (whole ++ (fs ++ es)))

/-- What does not go on with a number. -/
def Ends (rest : List Char) : Prop :=
  ∀ c ∈ rest.head?, c.isDigit = false ∧ c ≠ '.' ∧ c ∉ ['e', 'E']

theorem takeSign_append {signs rest : List Char} {sign : Option Char}
    (hsign : ∀ c ∈ sign, c ∈ signs) (hrest : ∀ c ∈ rest.head?, c ∉ signs) :
    takeSign signs (sign.toList ++ rest) = (sign, rest) := by
  cases sign with
  | none =>
    cases rest with
    | nil => rfl
    | cons c rest => exact if_neg (hrest c rfl)
  | some c => exact if_pos (hsign c rfl)

theorem takeSign_spec (signs cs : List Char) :
    (∀ c ∈ (takeSign signs cs).1, c ∈ signs) ∧
      cs = (takeSign signs cs).1.toList ++ (takeSign signs cs).2 := by
  cases cs with
  | nil => exact ⟨by rintro c ⟨⟩, rfl⟩
  | cons c rest =>
    by_cases hc : c ∈ signs
    · have hsign : takeSign signs (c :: rest) = (some c, rest) := if_pos hc
      rw [hsign]
      exact ⟨fun d hd => Option.some.inj hd ▸ hc, rfl⟩
    · have hsign : takeSign signs (c :: rest) = (none, c :: rest) := if_neg hc
      rw [hsign]
      exact ⟨by rintro d ⟨⟩, rfl⟩

theorem takeFraction_append {fraction fs rest : List Char} (h : SpelledFraction fraction fs)
    (hrest : ∀ c ∈ rest.head?, c.isDigit = false ∧ c ≠ '.') :
    takeFraction (fs ++ rest) = .ok (fraction, rest) := by
  cases h with
  | absent =>
    unfold takeFraction
    split
    · rename_i after heq
      rw [List.nil_append] at heq
      exact absurd rfl (hrest '.' (by rw [heq]; rfl)).2
    · rfl
  | present h => exact takeDigits_append h fun c hc => (hrest c hc).1

theorem spelled_of_takeFraction {cs fraction rest : List Char}
    (h : takeFraction cs = .ok (fraction, rest)) :
    ∃ fs, SpelledFraction fraction fs ∧ cs = fs ++ rest := by
  unfold takeFraction at h
  split at h
  · obtain ⟨hdigits, rfl⟩ := digits_of_takeDigits h
    exact ⟨'.' :: fraction, .present hdigits, rfl⟩
  · cases h
    exact ⟨[], .absent, rfl⟩

/-- No sign is a digit. -/
theorem Digits.head_ne {digits : List Char} (h : Digits digits) (rest : List Char) :
    ∀ c ∈ (digits ++ rest).head?, c ∉ ['+', '-'] := by
  obtain ⟨d, ds, rfl, hd⟩ := h.exists_cons
  rintro c ⟨⟩ hc
  simp only [List.mem_cons, List.not_mem_nil, or_false] at hc
  rcases hc with rfl | rfl <;> cases hd

theorem takeExponent_append {exponent : Option (Bool × List Char)} {es rest : List Char}
    (h : SpelledExponent exponent es) (hrest : Ends rest) :
    takeExponent (es ++ rest) = .ok (exponent, rest) := by
  unfold takeExponent
  cases h with
  | absent =>
    have hnone : takeSign ['e', 'E'] (Option.toList none ++ rest) = (none, rest) :=
      takeSign_append (by rintro c ⟨⟩) fun c hc => (hrest c hc).2.2
    rw [Option.toList_none] at hnone
    rw [hnone]
  | @present e sign digits he hsign h =>
    have hsome : takeSign ['e', 'E'] (e :: (sign.toList ++ digits) ++ rest) =
        (some e, sign.toList ++ (digits ++ rest)) := by
      rw [List.cons_append, List.append_assoc]
      exact if_pos he
    have hdigits : takeDigits (digits ++ rest) = .ok (digits, rest) :=
      takeDigits_append h fun c hc => (hrest c hc).1
    rw [hsome]
    simp only [takeSign_append hsign (h.head_ne rest), hdigits, bind, Except.bind]

theorem spelled_of_takeExponent {exponent : Option (Bool × List Char)} {cs rest : List Char}
    (h : takeExponent cs = .ok (exponent, rest)) :
    ∃ es, SpelledExponent exponent es ∧ cs = es ++ rest := by
  obtain ⟨he, hcs⟩ := takeSign_spec ['e', 'E'] cs
  unfold takeExponent at h
  split at h
  · rename_i after hnone
    cases h
    rw [hnone] at hcs
    exact ⟨[], .absent, hcs⟩
  · rename_i e after hsome
    rw [hsome] at he hcs
    obtain ⟨hsign, hafter⟩ := takeSign_spec ['+', '-'] after
    cases hd : takeDigits (takeSign ['+', '-'] after).2 with
    | error f =>
      simp only [hd, bind, Except.bind] at h
      cases h
    | ok taken =>
      simp only [hd, bind, Except.bind] at h
      cases h
      obtain ⟨hdigits, hrest⟩ := digits_of_takeDigits hd
      refine ⟨_, .present (he e rfl) hsign hdigits, ?_⟩
      rw [hcs, List.cons_append, List.append_assoc, ← hrest, ← hafter]
      rfl

theorem takeNumber_append {t : NumberText} {cs rest : List Char} (h : SpelledNumber t cs)
    (hrest : Ends rest) : takeNumber (cs ++ rest) = .ok (t, rest) := by
  obtain ⟨hsign, hwhole, hzero, hfraction, hexponent⟩ := h
  rename_i sign whole fraction fs es exponent
  have hes : ∀ c ∈ (es ++ rest).head?, c.isDigit = false ∧ c ≠ '.' := by
    cases hexponent with
    | absent => exact fun c hc => ⟨(hrest c hc).1, (hrest c hc).2.1⟩
    | present he _ _ =>
      rintro c ⟨⟩
      simp only [List.mem_cons, List.not_mem_nil, or_false] at he
      rcases he with rfl | rfl <;> decide
  have hfs : NoDigit (fs ++ (es ++ rest)) := by
    cases hfraction with
    | absent => exact fun c hc => (hes c hc).1
    | present _ =>
      rintro c ⟨⟩
      rfl
  have htext : sign.toList ++ (whole ++ (fs ++ es)) ++ rest =
      sign.toList ++ (whole ++ (fs ++ (es ++ rest))) := by simp
  have htakeSign : takeSign ['-'] (sign.toList ++ (whole ++ (fs ++ (es ++ rest)))) =
      (sign, whole ++ (fs ++ (es ++ rest))) :=
    takeSign_append hsign fun c hc hm => hwhole.head_ne _ c hc (List.mem_cons_of_mem _ hm)
  have htakeWhole : takeWhole (whole ++ (fs ++ (es ++ rest))) = .ok (whole, fs ++ (es ++ rest)) := by
    unfold takeWhole
    rw [takeDigits_append hwhole hfs]
    exact if_neg fun h => h.2 (hzero h.1)
  unfold takeNumber
  rw [htext, htakeSign]
  simp only [htakeWhole, takeFraction_append hfraction hes, takeExponent_append hexponent hrest, bind,
    Except.bind]

theorem spelled_of_takeWhole {cs whole rest : List Char} (h : takeWhole cs = .ok (whole, rest)) :
    Digits whole ∧ (whole.head? = some '0' → whole.length = 1) ∧ cs = whole ++ rest := by
  unfold takeWhole at h
  cases hd : takeDigits cs with
  | error f =>
    rw [hd] at h
    cases h
  | ok taken =>
    simp only [hd, bind, Except.bind] at h
    split at h
    · cases h
    · rename_i hzero
      cases h
      obtain ⟨hdigits, hcs⟩ := digits_of_takeDigits hd
      exact ⟨hdigits, fun hhead => Classical.byContradiction fun hlen => hzero ⟨hhead, hlen⟩, hcs⟩

theorem spelled_of_takeNumber {t : NumberText} {cs rest : List Char}
    (h : takeNumber cs = .ok (t, rest)) : ∃ ns, SpelledNumber t ns ∧ cs = ns ++ rest := by
  obtain ⟨hsign, hcs⟩ := takeSign_spec ['-'] cs
  simp only [takeNumber, bind, Except.bind] at h
  cases hw : takeWhole (takeSign ['-'] cs).2 with
  | error f => simp [hw] at h
  | ok w =>
    simp only [hw] at h
    cases hf : takeFraction w.2 with
    | error f => simp [hf] at h
    | ok fr =>
      simp only [hf] at h
      cases he : takeExponent fr.2 with
      | error f => simp [he] at h
      | ok e =>
        simp only [he] at h
        cases h
        obtain ⟨hwhole, hzero, hrest⟩ := spelled_of_takeWhole hw
        obtain ⟨fs, hfraction, hrest'⟩ := spelled_of_takeFraction hf
        obtain ⟨es, hexponent, hrest''⟩ := spelled_of_takeExponent he
        refine ⟨_, .intro hsign hwhole hzero hfraction hexponent, ?_⟩
        simp only [List.append_assoc]
        rw [← hrest'', ← hrest', ← hrest, ← hcs]

/-! ## Strings -/

/-- A piece of a string is spelled by its character, by a backslash and a letter, or by a backslash
and a number. -/
inductive Piece.Spelled : Piece → List Char → Prop
  | plain {c : Char} (hquote : c ≠ '"') (hslash : c ≠ '\\') (hc : ¬ c.toNat < 0x20) :
    Spelled (.char c) [c]
  | letter {letter c : Char} (h : escapedChar? letter = some c) : Spelled (.char c) ['\\', letter]
  | number {digits : List Char} {n : Nat} (h : hexNumber? digits = some n) :
    Spelled (.unit n) ('\\' :: 'u' :: digits)

inductive SpelledPieces : List Piece → List Char → Prop
  | nil : SpelledPieces [] []
  | cons {p : Piece} {ps : List Piece} {cs rest : List Char} (h : p.Spelled cs)
    (hrest : SpelledPieces ps rest) : SpelledPieces (p :: ps) (cs ++ rest)

theorem length_of_hexNumber? {digits : List Char} {n : Nat} (h : hexNumber? digits = some n) :
    digits.length = 4 := by
  unfold hexNumber? at h
  split at h
  · rfl
  · cases h

theorem length_le_utf8Length (cs : List Char) : cs.length ≤ utf8Length cs := by
  induction cs with
  | nil => exact Nat.le_refl 0
  | cons c rest ih =>
    have := c.utf8Size_pos
    simp only [List.length_cons, utf8Length]
    omega

theorem escapedUnit_append {digits : List Char} {n : Nat} (h : hexNumber? digits = some n)
    (rest : List Char) : escapedUnit (digits ++ rest) = .ok n := by
  have hlen := length_of_hexNumber? h
  have htake : (digits ++ rest).take 4 = digits := by rw [← hlen, List.take_left]
  have hlong : ¬ utf8Length digits < 4 := by
    have := length_le_utf8Length digits
    omega
  unfold escapedUnit
  rw [htake, if_neg hlong, h]

theorem hexNumber?_of_escapedUnit {cs : List Char} {n : Nat} (h : escapedUnit cs = .ok n) :
    hexNumber? (cs.take 4) = some n := by
  unfold escapedUnit at h
  split at h
  · cases h
  · split at h
    · rename_i m hm
      cases h
      exact hm
    · cases h

theorem pieces_quote (rest : List Char) : pieces ('"' :: rest) = ([], rest) := by
  unfold pieces
  rfl

theorem pieces_cons {p : Piece} {cs : List Char} (h : p.Spelled cs) (rest : List Char) :
    pieces (cs ++ rest) = (p :: (pieces rest).1, (pieces rest).2) := by
  cases h with
  | plain hquote hslash hc =>
    conv => lhs; unfold pieces
    simp [hquote, hslash, hc]
  | @letter letter c h =>
    have hu : letter ≠ 'u' := by
      rintro rfl
      cases h
    conv => lhs; unfold pieces
    simp [hu, h]
  | @number digits n h =>
    have hdrop : (digits ++ rest).drop 4 = rest := by rw [← length_of_hexNumber? h, List.drop_left]
    conv => lhs; unfold pieces
    simp [escapedUnit_append h, hdrop]

/-- Up to the closing quote there are the pieces of the string. -/
theorem pieces_append {ps : List Piece} {cs : List Char} (h : SpelledPieces ps cs)
    (rest : List Char) : pieces (cs ++ '"' :: rest) = (ps, rest) := by
  induction h with
  | nil => exact pieces_quote rest
  | cons h _ ih => rw [List.append_assoc, pieces_cons h, ih]

theorem SpelledPieces.faultless {ps : List Piece} {cs : List Char} (h : SpelledPieces ps cs) :
    ps.findSome? pieceFault? = none := by
  induction h with
  | nil => rfl
  | cons h _ ih => cases h <;> exact ih

theorem spelled_of_pieces {cs rest : List Char} {ps : List Piece} (h : pieces cs = (ps, rest))
    (hps : ps.findSome? pieceFault? = none) :
    ∃ qs, SpelledPieces ps qs ∧ cs = qs ++ '"' :: rest := by
  fun_induction pieces cs generalizing ps rest with
  | case1 | case3 | case4 | case6 | case8 =>
    cases h
    cases hps
  | case2 rest' =>
    cases h
    exact ⟨[], .nil, rfl⟩
  | case5 after n hunit ps' after' hpieces _ ih =>
    cases h
    obtain ⟨qs, hqs, hrest⟩ := ih hpieces hps
    refine ⟨_, .cons (.number (hexNumber?_of_escapedUnit hunit)) hqs, ?_⟩
    rw [List.append_assoc, ← hrest]
    simp
  | case7 letter after _ c hletter ps' after' hpieces _ ih =>
    cases h
    obtain ⟨qs, hqs, rfl⟩ := ih hpieces hps
    exact ⟨_, .cons (.letter hletter) hqs, rfl⟩
  | case9 c after hquote hslash hc ps' after' hpieces ih =>
    cases h
    obtain ⟨qs, hqs, rfl⟩ := ih hpieces hps
    exact ⟨_, .cons (.plain hquote hslash hc) hqs, rfl⟩

/-- There is no fault in pieces that have characters. -/
theorem faultless_of_pieceChars {ps : List Piece} {cs : List Char} (h : pieceChars ps = .ok cs) :
    ps.findSome? pieceFault? = none := by
  fun_induction pieceChars ps generalizing cs with
  | case1 => rfl
  | case2 | case4 | case6 | case7 | case8 => cases h
  | case3 c rest ih | case5 n _ _ m rest _ ih | case9 n rest _ _ ih =>
    cases hrest : pieceChars rest with
    | error f =>
      rw [hrest] at h
      cases h
    | ok cs' => exact ih hrest

/-! ## Tokens in a row -/

inductive Token.Spelled : Token → List Char → Prop
  | mark {c : Char} {t : Token} (h : mark? c = some t) : Spelled t [c]
  | word {c : Char} {letters : List Char} {t : Token} (h : word? c = some (letters, t)) :
    Spelled t (c :: letters)
  | number {t : NumberText} {cs : List Char} (h : SpelledNumber t cs) :
    Spelled (.number ⟨t.value, none⟩) cs
  | text {ps : List Piece} {cs : List Char} (h : SpelledPieces ps cs) :
    Spelled (.text (readPieces ps)) ('"' :: (cs ++ ['"']))

/-- The tokens in a row, with any space before, between and behind them. -/
inductive Spaced : List Token → List Char → Prop
  | nil {gap : List Char} (hgap : ∀ c ∈ gap, isSpace c = true) : Spaced [] gap
  | cons {gap cs rest : List Char} {t : Token} {ts : List Token}
    (hgap : ∀ c ∈ gap, isSpace c = true) (h : t.Spelled cs) (hrest : Spaced ts rest) :
    Spaced (t :: ts) (gap ++ (cs ++ rest))

def Token.isNumber : Token → Bool
  | .number _ => true
  | _ => false

/-- No number stands behind a number. -/
def Apart (ts : List Token) : Prop :=
  ts.IsChain fun t t' => t.isNumber = true → t'.isNumber = false

theorem tokens_gap {gap : List Char} (hgap : ∀ c ∈ gap, isSpace c = true) (rest : List Char) :
    tokens (gap ++ rest) = tokens rest := by
  induction gap with
  | nil => rfl
  | cons c gap ih =>
    rw [List.forall_mem_cons] at hgap
    rw [List.cons_append, tokens, if_pos hgap.1, ih hgap.2]

theorem tokens_mark {c : Char} {t : Token} (h : mark? c = some t) (rest : List Char) :
    tokens (c :: rest) = t :: tokens rest := by
  have hspace : isSpace c = false := by
    unfold mark? at h
    split at h
    all_goals first
      | rfl
      | cases h
  rw [tokens]
  simp [hspace, h]

theorem takeWord_append (letters rest : List Char) :
    takeWord letters (letters ++ rest) = .ok rest := by
  induction letters with
  | nil => rfl
  | cons a letters ih => simp [takeWord, ih]

theorem eq_append_of_takeWord {letters cs rest : List Char} (h : takeWord letters cs = .ok rest) :
    cs = letters ++ rest := by
  fun_induction takeWord letters cs with
  | case1 cs =>
    cases h
    rfl
  | case2 => cases h
  | case3 a letters cs ih => rw [ih h, List.cons_append]
  | case4 => cases h

theorem tokens_word {c : Char} {letters : List Char} {t : Token}
    (h : word? c = some (letters, t)) (rest : List Char) :
    tokens (c :: (letters ++ rest)) = t :: tokens rest := by
  have hstart : isSpace c = false ∧ mark? c = none ∧ c ≠ '"' ∧ startsNumber c = false := by
    unfold word? at h
    split at h
    all_goals first
      | decide
      | cases h
  rw [tokens]
  simp only [hstart, h, Bool.false_eq_true, if_false]
  split
  · rename_i after heq
    rw [takeWord_append] at heq
    cases heq
    rfl
  · rename_i f heq
    rw [takeWord_append] at heq
    cases heq

/-- A number starts with its sign or a digit. -/
theorem SpelledNumber.exists_cons {t : NumberText} {cs : List Char} (h : SpelledNumber t cs) :
    ∃ c rest, cs = c :: rest ∧ isSpace c = false ∧ mark? c = none ∧ c ≠ '"' ∧
      startsNumber c = true := by
  obtain ⟨hsign, hwhole, -, -, -⟩ := h
  rename_i sign whole fraction fs es exponent
  cases sign with
  | none =>
    obtain ⟨d, ds, rfl, hd⟩ := hwhole.exists_cons
    obtain ⟨hspace, hmark, hquote, -, hstarts⟩ := starts_of_isDigit hd
    exact ⟨d, _, rfl, hspace, hmark, hquote, hstarts⟩
  | some c =>
    obtain rfl : c = '-' := by simpa using hsign c rfl
    exact ⟨'-', _, rfl, rfl, rfl, by decide, rfl⟩

theorem tokens_number {t : NumberText} {cs rest : List Char} (h : SpelledNumber t cs)
    (hrest : Ends rest) : tokens (cs ++ rest) = .number ⟨t.value, none⟩ :: tokens rest := by
  have hnumber := takeNumber_append h hrest
  obtain ⟨c, after, rfl, hspace, hmark, hquote, hstarts⟩ := h.exists_cons
  rw [List.cons_append] at hnumber ⊢
  rw [tokens]
  simp only [hspace, hmark, hquote, hstarts, Bool.false_eq_true, if_false, if_true]
  split
  · rename_i t' after' heq
    rw [hnumber] at heq
    cases heq
    rfl
  · rename_i f heq
    rw [hnumber] at heq
    cases heq

theorem tokens_text {ps : List Piece} {cs : List Char} (h : SpelledPieces ps cs)
    (rest : List Char) :
    tokens ('"' :: (cs ++ '"' :: rest)) = .text (readPieces ps) :: tokens rest := by
  rw [tokens]
  simp [isSpace, mark?, pieces_append h]

theorem tokens_append {t : Token} {cs rest : List Char} (h : t.Spelled cs)
    (hrest : t.isNumber = true → Ends rest) : tokens (cs ++ rest) = t :: tokens rest := by
  cases h with
  | mark h => exact tokens_mark h rest
  | word h => exact tokens_word h rest
  | number h => exact tokens_number h (hrest rfl)
  | text h => simpa using tokens_text h rest

theorem Token.Spelled.ends {t : Token} {cs : List Char} (h : t.Spelled cs)
    (ht : t.isNumber = false) (rest : List Char) : Ends (cs ++ rest) := by
  cases h with
  | mark h =>
    rintro c ⟨⟩
    unfold mark? at h
    split at h <;> first | decide | cases h
  | word h =>
    rintro c ⟨⟩
    unfold word? at h
    split at h <;> first | decide | cases h
  | number h => cases ht
  | text h =>
    rintro c ⟨⟩
    decide

theorem ends_of_isSpace {c : Char} (h : isSpace c = true) (rest : List Char) : Ends (c :: rest) := by
  simp only [isSpace, Bool.or_eq_true, decide_eq_true_eq] at h
  rcases h with ((rfl | rfl) | rfl) | rfl <;> rintro c ⟨⟩ <;> decide

theorem ends_gap {gap rest : List Char} (hgap : ∀ c ∈ gap, isSpace c = true) (hrest : Ends rest) :
    Ends (gap ++ rest) := by
  cases gap with
  | nil => exact hrest
  | cons c gap => exact ends_of_isSpace (hgap c (List.mem_cons_self ..)) _

theorem Spaced.ends {ts : List Token} {cs : List Char} (h : Spaced ts cs)
    (hhead : ∀ t ∈ ts.head?, t.isNumber = false) : Ends cs := by
  cases h with
  | nil hgap =>
    have hends : Ends (cs ++ []) := ends_gap hgap (by rintro c ⟨⟩)
    rwa [List.append_nil] at hends
  | cons hgap h _ => exact ends_gap hgap (h.ends (hhead _ rfl) _)

/-- Tokens are found again where they are spelled in a row. -/
theorem tokens_of_spaced {ts : List Token} {cs : List Char} (h : Spaced ts cs) (hapart : Apart ts) :
    tokens cs = ts := by
  induction h with
  | nil hgap =>
    have hgap := tokens_gap hgap []
    rw [List.append_nil] at hgap
    rw [hgap, tokens]
  | cons hgap h hrest ih =>
    obtain ⟨hhead, hapart⟩ := List.isChain_cons.1 hapart
    rw [tokens_gap hgap, tokens_append h fun ht => hrest.ends fun t' ht' => hhead t' ht' ht, ih hapart]

/-! ## Texts that fall apart into tokens -/

/-- Keeping or passing over the token, some reader gets past it. -/
def Token.Legible : Token → Prop
  | .number r => (∃ n, r.value = .ok n) ∨ r.formFault = none
  | .text r => (∃ s, r.value = .ok s) ∨ r.formFault = none
  | .broken _ => False
  | _ => True

/-- Nothing is wrong with the form of the token. -/
def Token.WellFormed : Token → Prop
  | .number r => r.formFault = none
  | .text r => r.formFault = none
  | .broken _ => False
  | _ => True

theorem Token.WellFormed.legible {t : Token} (h : t.WellFormed) : t.Legible := by
  cases t with
  | number | text => exact .inr h
  | broken => exact h
  | _ => trivial

theorem Token.Spelled.wellFormed {t : Token} {cs : List Char} (h : t.Spelled cs) :
    t.WellFormed := by
  cases h with
  | mark h =>
    unfold mark? at h
    split at h <;> cases h <;> trivial
  | word h =>
    unfold word? at h
    split at h <;> cases h <;> trivial
  | number h => rfl
  | text h => exact h.faultless

theorem Spaced.wellFormed {ts : List Token} {cs : List Char} (h : Spaced ts cs) :
    ∀ t ∈ ts, t.WellFormed := by
  induction h with
  | nil => exact fun t ht => absurd ht List.not_mem_nil
  | cons _ h _ ih => exact List.forall_mem_cons.2 ⟨h.wellFormed, ih⟩

theorem spaced_gap {ts : List Token} {cs : List Char} (h : Spaced ts cs) {c : Char}
    (hc : isSpace c = true) : Spaced ts (c :: cs) := by
  cases h with
  | nil hgap => exact .nil (List.forall_mem_cons.2 ⟨hc, hgap⟩)
  | cons hgap h hrest => exact .cons (List.forall_mem_cons.2 ⟨hc, hgap⟩) h hrest

/-- A row of tokens starts without space. -/
theorem Spaced.cons_bare {t : Token} {ts : List Token} {cs rest : List Char} (h : t.Spelled cs)
    (hrest : Spaced ts rest) : Spaced (t :: ts) (cs ++ rest) :=
  .cons (fun _ hc => absurd hc List.not_mem_nil) h hrest

theorem Spaced.single {t : Token} {cs : List Char} (h : t.Spelled cs) : Spaced [t] cs := by
  have hspaced : Spaced [t] (cs ++ []) := .cons_bare h (.nil fun _ hc => absurd hc List.not_mem_nil)
  rwa [List.append_nil] at hspaced

theorem Spaced.append {ts ts' : List Token} {cs cs' : List Char} (h : Spaced ts cs)
    (h' : Spaced ts' cs') : Spaced (ts ++ ts') (cs ++ cs') := by
  induction h with
  | @nil gap hgap =>
    induction gap with
    | nil => exact h'
    | cons c gap ih =>
      rw [List.forall_mem_cons] at hgap
      exact spaced_gap (ih hgap.2) hgap.1
  | cons hgap h _ ih =>
    rw [List.append_assoc, List.append_assoc]
    exact .cons hgap h ih

theorem faultless_of_legible {ps : List Piece} (h : (Token.text (readPieces ps)).Legible) :
    ps.findSome? pieceFault? = none := by
  rcases h with ⟨s, hs⟩ | h
  · cases hp : pieceChars ps with
    | error f =>
      simp only [readPieces, hp] at hs
      cases hs
    | ok cs => exact faultless_of_pieceChars hp
  · exact h

/-- A text whose tokens can be read is spelled by the grammar. -/
theorem spaced_tokens {cs : List Char} (h : ∀ t ∈ tokens cs, t.Legible) : Spaced (tokens cs) cs := by
  fun_induction tokens cs with
  | case1 => exact .nil (by simp)
  | case2 c rest hspace ih => exact spaced_gap (ih h) hspace
  | case3 c rest _ t hmark ih =>
    exact .cons_bare (.mark hmark) (ih fun t ht => h t (List.mem_cons_of_mem _ ht))
  | case4 rest string _ _ ih =>
    obtain ⟨qs, hqs, hrest⟩ := spelled_of_pieces rfl
      (faultless_of_legible (h _ (List.mem_cons_self ..)))
    have htext := Spaced.cons_bare (.text hqs) (ih fun t ht => h t (List.mem_cons_of_mem _ ht))
    rw [hrest]
    simpa using htext
  | case5 c rest _ _ _ _ t after hnumber ih =>
    obtain ⟨ns, hns, hcs⟩ := spelled_of_takeNumber hnumber
    rw [hcs]
    exact .cons_bare (.number hns) (ih fun t ht => h t (List.mem_cons_of_mem _ ht))
  | case6 =>
    rcases h _ (List.mem_singleton_self _) with ⟨n, hn⟩ | hform
    · cases hn
    · cases hform
  | case7 | case9 => exact (h _ (List.mem_singleton_self _)).elim
  | case8 c rest _ _ _ _ letters t hword after htake ih =>
    rw [eq_append_of_takeWord htake]
    exact .cons_bare (.word hword) (ih fun t ht => h t (List.mem_cons_of_mem _ ht))

end LogicWiring.Json
