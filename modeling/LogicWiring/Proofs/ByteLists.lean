-- The bytes of a program read back from the texts that list them: numerals
-- with commas between them, and rows of numerals in an array for a C program.
-- Main statement: `byte_texts_lossless`.
import LogicWiring.ByteText
import LogicWiring.Proofs.TextPieces
import LogicWiring.Proofs.WrittenText
import Mathlib

namespace LogicWiring

/-! ## Numerals of bytes -/

/-- Digits alone, with no zero in front of others. -/
structure PlainNumeral (cs : List Char) : Prop where
  ne_nil : cs ≠ []
  digits : ∀ c ∈ cs, c.isDigit = true
  alone : cs.head? = some '0' → cs.length = 1

theorem plainNumeral_toDigits (n : Nat) : PlainNumeral (Nat.toDigits 10 n) where
  ne_nil := Nat.toDigits_ne_nil
  digits _ hc := isDigit_of_mem_toDigits hc
  alone := Json.length_toDigits_of_head

/-- The byte that a numeral names. -/
def byte? (cs : List Char) : Option UInt8 :=
  match Decimal.natural? cs with
  | some n => if n < UInt8.size then some (UInt8.ofNat n) else none
  | none => none

theorem byte?_toDigits (b : UInt8) : byte? (Nat.toDigits 10 b.toNat) = some b := by
  unfold byte?
  rw [natural?_toDigits]
  simp only [UInt8.ofNat_toNat]
  exact if_pos b.toNat_lt

theorem toList_byteText (b : UInt8) : (byteText b).toList = Nat.toDigits 10 b.toNat :=
  Nat.toList_repr

/-! ## Numerals between commas -/

/-- The bytes of numerals with commas between them. No text is no bytes. -/
def readCommaText? (text : String) : Option (List UInt8) :=
  if text = "" then some [] else (text.toList.splitOn ',').mapM byte?

theorem splitOn_commaText {bytes : List UInt8} (h : bytes ≠ []) :
    (commaText bytes).toList.splitOn ',' = bytes.map fun b => Nat.toDigits 10 b.toNat := by
  have htext : (commaText bytes).toList =
      [','].intercalate (bytes.map fun b => Nat.toDigits 10 b.toNat) := by
    simp [commaText, String.toList_intercalate, Function.comp_def, toList_byteText]
  have hcomma : ∀ piece ∈ bytes.map fun b => Nat.toDigits 10 b.toNat, ',' ∉ piece := by
    rw [List.forall_mem_map]
    exact fun b _ => not_mem_toDigits rfl b.toNat
  rw [htext, List.splitOn_intercalate ',' hcomma (by simpa using h)]

theorem commaText_eq_empty_iff (bytes : List UInt8) : commaText bytes = "" ↔ bytes = [] := by
  constructor
  · intro htext
    by_contra h
    have hpieces := splitOn_commaText h
    rw [htext] at hpieces
    have hempty : [] ∈ bytes.map fun b => Nat.toDigits 10 b.toNat :=
      hpieces ▸ List.mem_singleton_self []
    obtain ⟨b, -, hb⟩ := List.mem_map.1 hempty
    exact Nat.toDigits_ne_nil hb
  · rintro rfl
    rfl

theorem mapM_byte? (bytes : List UInt8) :
    (bytes.map fun b => Nat.toDigits 10 b.toNat).mapM byte? = some bytes := by
  rw [mapM_map_eq_some fun b _ => byte?_toDigits b, List.map_id']

theorem readCommaText?_commaText (bytes : List UInt8) :
    readCommaText? (commaText bytes) = some bytes := by
  unfold readCommaText?
  by_cases h : bytes = []
  · rw [if_pos ((commaText_eq_empty_iff bytes).2 h), h]
  · rw [if_neg (mt (commaText_eq_empty_iff bytes).1 h), splitOn_commaText h, mapM_byte?]

/-! ## Rows -/

theorem flatten_byteRows (bytes : List UInt8) : (byteRows bytes).flatten = bytes := by
  fun_induction byteRows bytes with
  | case1 => rfl
  | case2 b rest ih => rw [List.flatten_cons, ih, List.cons_append, List.take_append_drop]

theorem byteRows_eq_nil_iff (bytes : List UInt8) : byteRows bytes = [] ↔ bytes = [] := by
  fun_cases byteRows bytes with
  | case1 => simp
  | case2 b rest => simp

/-- A row has sixteen bytes at most, and is never empty. -/
theorem length_of_mem_byteRows {bytes row : List UInt8} (h : row ∈ byteRows bytes) :
    1 ≤ row.length ∧ row.length ≤ 16 := by
  fun_induction byteRows bytes with
  | case1 => cases h
  | case2 b rest ih =>
    rcases List.mem_cons.1 h with rfl | h
    · rw [List.length_cons, List.length_take]
      omega
    · exact ih h

/-- Only the last row is not full. -/
theorem length_of_mem_dropLast_byteRows {bytes row : List UInt8}
    (h : row ∈ (byteRows bytes).dropLast) : row.length = 16 := by
  fun_induction byteRows bytes with
  | case1 => cases h
  | case2 b rest ih =>
    by_cases hlast : byteRows (rest.drop 15) = []
    · rw [hlast] at h
      cases h
    · rw [List.dropLast_cons_of_ne_nil hlast] at h
      rcases List.mem_cons.1 h with rfl | h
      · have hmore : rest.drop 15 ≠ [] := mt (byteRows_eq_nil_iff _).2 hlast
        rw [Ne, List.drop_eq_nil_iff] at hmore
        rw [List.length_cons, List.length_take]
        omega
      · exact ih h

/-! ## Numerals with a comma behind each -/

/-- The bytes of numerals that each have a comma behind them. Blanks do not count. -/
def readValues? (cs : List Char) : Option (List UInt8) :=
  let pieces := (cs.splitOn ',').map trimChars
  if pieces.getLast? = some [] then pieces.dropLast.mapM byte? else none

/-- The characters list these bytes, with any blanks in front of each numeral and at the end. -/
inductive Listed : List UInt8 → List Char → Prop
  | nil {blanks : List Char} (h : ∀ c ∈ blanks, isBlank c = true) : Listed [] blanks
  | cons {blanks rest : List Char} (b : UInt8) {bytes : List UInt8}
    (h : ∀ c ∈ blanks, isBlank c = true) (hrest : Listed bytes rest) :
    Listed (b :: bytes) (blanks ++ Nat.toDigits 10 b.toNat ++ ',' :: rest)

namespace Listed

variable {bytes bytes' : List UInt8} {cs cs' : List Char}

theorem empty : Listed [] [] := .nil (by simp)

theorem blanks {blanks : List Char} (h : ∀ c ∈ blanks, isBlank c = true) (hcs : Listed bytes cs) :
    Listed bytes (blanks ++ cs) := by
  cases hcs with
  | nil h' => exact .nil (List.forall_mem_append.2 ⟨h, h'⟩)
  | cons b h' hrest =>
    have hlisted := Listed.cons b (List.forall_mem_append.2 ⟨h, h'⟩) hrest
    simpa using hlisted

theorem append (h : Listed bytes cs) (h' : Listed bytes' cs') :
    Listed (bytes ++ bytes') (cs ++ cs') := by
  induction h with
  | nil h => exact h'.blanks h
  | cons b h _ ih =>
    have hlisted := Listed.cons b h ih
    simpa using hlisted

theorem not_mem {c : Char} (h : Listed bytes cs) (hdigit : c.isDigit = false)
    (hblank : isBlank c = false) (hcomma : c ≠ ',') : c ∉ cs := by
  induction h with
  | nil h => exact not_mem_blanks hblank h
  | cons b h _ ih => simp [not_mem_blanks hblank h, not_mem_toDigits hdigit, hcomma, ih]

theorem pieces (h : Listed bytes cs) : (cs.splitOn ',').map trimChars =
    (bytes.map fun b => Nat.toDigits 10 b.toNat) ++ [[]] := by
  induction h with
  | @nil blanks h =>
    have htrim : trimChars blanks = [] := by
      unfold trimChars
      rw [List.dropWhile_eq_nil_iff.2 h]
      rfl
    rw [List.splitOn_eq_singleton (not_mem_blanks rfl h), List.map_singleton, htrim]
    rfl
  | @cons blanks rest b bytes h _ ih =>
    have hnumeral : trimChars (blanks ++ Nat.toDigits 10 b.toNat) = Nat.toDigits 10 b.toNat := by
      have hdigits : ∀ c ∈ Nat.toDigits 10 b.toNat, isBlank c = false := fun c hc =>
        isBlank_eq_false_of_isDigit (isDigit_of_mem_toDigits hc)
      have hnone : ∀ c ∈ ([] : List Char), isBlank c = true := by simp
      simpa using trimChars_padded h hnone Nat.toDigits_ne_nil hdigits
    have hnot : ',' ∉ blanks ++ Nat.toDigits 10 b.toNat :=
      List.not_mem_append (not_mem_blanks rfl h) (not_mem_toDigits rfl _)
    rw [List.splitOn_append_cons_self_of_not_mem hnot, List.map_cons, hnumeral, ih]
    rfl

theorem read (h : Listed bytes cs) : readValues? cs = some bytes := by
  unfold readValues?
  rw [h.pieces]
  simp only [List.getLast?_concat, List.dropLast_concat, mapM_byte?, if_true]

end Listed

/-! ## The lines of an array -/

/-- The line of a row. -/
def rowLine (row : List UInt8) : List Char :=
  List.replicate 4 ' ' ++ [',', ' '].intercalate (row.map fun b => Nat.toDigits 10 b.toNat) ++ [',']

theorem toList_rowText (row : List UInt8) : (rowText row).toList = rowLine row ++ ['\n'] := by
  unfold rowText rowLine
  simp [String.toList_intercalate, Function.comp_def, toList_byteText]

theorem listed_intercalate {blanks : List Char} (h : ∀ c ∈ blanks, isBlank c = true) (b : UInt8)
    (bytes : List UInt8) : Listed (b :: bytes) (blanks ++
      [',', ' '].intercalate ((b :: bytes).map fun b => Nat.toDigits 10 b.toNat) ++ [',']) := by
  induction bytes generalizing b blanks with
  | nil => simpa using Listed.cons b h .empty
  | cons next bytes ih =>
    have hspace : ∀ c ∈ [' '], isBlank c = true := List.all_eq_true.1 rfl
    rw [List.map_cons, List.intercalate_cons_of_ne_nil (by simp)]
    simpa using Listed.cons b h (ih hspace next)

theorem listed_rowLine {row : List UInt8} (h : row ≠ []) : Listed row (rowLine row) := by
  obtain ⟨b, rest, rfl⟩ := List.exists_cons_of_ne_nil h
  exact listed_intercalate (List.all_eq_true.1 rfl) b rest

theorem newline_not_mem_rowLine (row : List UInt8) : '\n' ∉ rowLine row := by
  have hnumerals :
      '\n' ∉ [',', ' '].intercalate (row.map fun b => Nat.toDigits 10 b.toNat) := by
    induction row with
    | nil => simp
    | cons b row ih =>
      cases row with
      | nil => simpa using not_mem_toDigits rfl b.toNat
      | cons next row =>
        rw [List.map_cons, List.intercalate_cons_of_ne_nil (by simp)]
        simpa [not_mem_toDigits] using ih
  simp [rowLine, hnumerals]

theorem listed_rows {rows : List (List UInt8)} (h : ∀ row ∈ rows, row ≠ []) :
    Listed rows.flatten (rows.flatMap fun row => rowLine row ++ ['\n']) := by
  have hend : Listed [] ['\n'] := .nil (List.all_eq_true.1 rfl)
  induction rows with
  | nil => exact .empty
  | cons row rows ih =>
    rw [List.forall_mem_cons] at h
    rw [List.flatten_cons, List.flatMap_cons]
    have hrow := (listed_rowLine h.1).append hend
    rw [List.append_nil] at hrow
    exact hrow.append (ih h.2)

/-! ## Arrays -/

/-- What stands between the last closing bracket of a kind and the opening one before it. -/
def lastBetween (first last : Char) (cs : List Char) : List Char :=
  (((cs.reverse.dropWhile (· ≠ last)).drop 1).takeWhile (· ≠ first)).reverse

theorem lastBetween_eq {first last : Char} {inside after : List Char} (hinside : first ∉ inside)
    (hafter : last ∉ after) (before : List Char) :
    lastBetween first last (before ++ first :: inside ++ last :: after) = inside := by
  have hreverse : (before ++ first :: inside ++ last :: after).reverse =
      after.reverse ++ last :: (inside.reverse ++ first :: before.reverse) := by simp
  have hback : (after.reverse ++ last :: (inside.reverse ++ first :: before.reverse)).dropWhile
      (· ≠ last) = last :: (inside.reverse ++ first :: before.reverse) := by
    rw [List.dropWhile_append_of_pos, List.dropWhile_cons_of_neg (by simp)]
    intro c hc
    have hne : c ≠ last := ne_of_mem_of_not_mem (List.mem_reverse.1 hc) hafter
    simp [hne]
  have hfront : (inside.reverse ++ first :: before.reverse).takeWhile (· ≠ first) =
      inside.reverse := by
    rw [List.takeWhile_append_of_pos, List.takeWhile_cons_of_neg (by simp), List.append_nil]
    intro c hc
    have hne : c ≠ first := ne_of_mem_of_not_mem (List.mem_reverse.1 hc) hinside
    simp [hne]
  unfold lastBetween
  rw [hreverse, hback, List.drop_one, List.tail_cons, hfront, List.reverse_reverse]

/-- The length that the definition of an array declares, whatever its name is. -/
def declaredLength? (text : String) : Option Nat :=
  Decimal.natural? (lastBetween '[' ']' text.toList)

/-- What stands between the braces. -/
def initializer (text : String) : List Char := lastBetween '{' '}' text.toList

/-- The lines between the braces with something in them. -/
def valueLines (text : String) : List (List Char) :=
  ((initializer text).splitOn '\n').filter (· ≠ [])

/-- All that stands between the braces of an array. -/
def arrayBody (bytes : List UInt8) : List Char :=
  '\n' :: (byteRows bytes).flatMap fun row => rowLine row ++ ['\n']

theorem listed_arrayBody (bytes : List UInt8) : Listed bytes (arrayBody bytes) := by
  have hbreak : Listed [] ['\n'] := .nil (List.all_eq_true.1 rfl)
  have hrows : ∀ row ∈ byteRows bytes, row ≠ [] := fun row hrow =>
    List.length_pos_iff.1 (length_of_mem_byteRows hrow).1
  have hlisted := hbreak.append (listed_rows hrows)
  rwa [flatten_byteRows] at hlisted

theorem splitOn_arrayBody (bytes : List UInt8) :
    (arrayBody bytes).splitOn '\n' = [] :: (byteRows bytes).map rowLine ++ [[]] := by
  have hlines : ∀ line ∈ [] :: (byteRows bytes).map rowLine, '\n' ∉ line := by
    rw [List.forall_mem_cons, List.forall_mem_map]
    exact ⟨List.not_mem_nil, fun row _ => newline_not_mem_rowLine row⟩
  have hbody : arrayBody bytes =
      ([] :: (byteRows bytes).map rowLine).flatMap (· ++ ['\n']) ++ [] := by
    simp [arrayBody, List.flatMap_map]
  rw [hbody, splitOn_ended hlines List.not_mem_nil]

theorem toList_arrayText (name : String) (bytes : List UInt8) :
    (arrayText name bytes).toList = ("const uint8_t " ++ name).toList ++
      '[' :: Nat.toDigits 10 bytes.length ++ ']' :: (" = ".toList ++ '{' :: arrayBody bytes ++
        ['}', ';', '\n']) := by
  have hrows : (String.join ((byteRows bytes).map rowText)).toList =
      (byteRows bytes).flatMap fun row => rowLine row ++ ['\n'] := by
    simp only [String.toList_join, List.flatMap_map, toList_rowText]
  unfold arrayText
  simp [arrayBody, hrows]

variable (name : String) (bytes : List UInt8)

theorem initializer_arrayText : initializer (arrayText name bytes) = arrayBody bytes := by
  have hopen : '{' ∉ arrayBody bytes := (listed_arrayBody bytes).not_mem rfl rfl (by decide)
  have htext : (arrayText name bytes).toList = (("const uint8_t " ++ name).toList ++
      '[' :: Nat.toDigits 10 bytes.length ++ ']' :: " = ".toList) ++ '{' :: arrayBody bytes ++
        '}' :: [';', '\n'] := by
    rw [toList_arrayText]
    simp
  have hclose : '}' ∉ [';', '\n'] := by decide
  unfold initializer
  rw [htext]
  exact lastBetween_eq hopen hclose _

theorem declaredLength?_arrayText :
    declaredLength? (arrayText name bytes) = some bytes.length := by
  have hopen : '[' ∉ Nat.toDigits 10 bytes.length := not_mem_toDigits rfl _
  have hclose : ']' ∉ arrayBody bytes := (listed_arrayBody bytes).not_mem rfl rfl (by decide)
  have hafter : ']' ∉ " = ".toList ++ '{' :: arrayBody bytes ++ ['}', ';', '\n'] := by
    simp [hclose]
  rw [declaredLength?, toList_arrayText, lastBetween_eq hopen hafter, natural?_toDigits]

theorem valueLines_arrayText :
    valueLines (arrayText name bytes) = (byteRows bytes).map rowLine := by
  have hlines : ∀ line ∈ (byteRows bytes).map rowLine, line ≠ [] := by
    rw [List.forall_mem_map]
    intro row _
    simp [rowLine]
  rw [valueLines, initializer_arrayText, splitOn_arrayBody]
  simpa using hlines

/-- The lines of an array hold its rows. -/
theorem mapM_rowLine {rows : List (List UInt8)} (h : ∀ row ∈ rows, row ≠ []) :
    (rows.map rowLine).mapM readValues? = some rows := by
  rw [mapM_map_eq_some fun row hrow => (listed_rowLine (h row hrow)).read, List.map_id']

/-! ## Nothing is lost -/

/-- Bytes are read back from both of their texts. The pieces between commas are plain numerals, so
nothing else stands in the text. An array declares its length, whatever its name is, and its lines
hold sixteen bytes each, the last at most as many. -/
theorem byte_texts_lossless :
    (readCommaText? (commaText bytes) = some bytes ∧ (commaText bytes = "" ↔ bytes = []) ∧
      (bytes ≠ [] → ∀ piece ∈ (commaText bytes).toList.splitOn ',', PlainNumeral piece)) ∧
    declaredLength? (arrayText name bytes) = some bytes.length ∧
    readValues? (initializer (arrayText name bytes)) = some bytes ∧
    (valueLines (arrayText name bytes) = [] ↔ bytes = []) ∧
    ∃ rows, (valueLines (arrayText name bytes)).mapM readValues? = some rows ∧
      rows.flatten = bytes ∧ (∀ row ∈ rows.dropLast, row.length = 16) ∧
      ∀ row ∈ rows.getLast?, 1 ≤ row.length ∧ row.length ≤ 16 := by
  refine ⟨⟨readCommaText?_commaText bytes, commaText_eq_empty_iff bytes, fun h => ?_⟩,
    declaredLength?_arrayText name bytes, ?_, ?_, byteRows bytes, ?_, flatten_byteRows bytes, ?_, ?_⟩
  · rw [splitOn_commaText h, List.forall_mem_map]
    exact fun b _ => plainNumeral_toDigits b.toNat
  · rw [initializer_arrayText]
    exact (listed_arrayBody bytes).read
  · rw [valueLines_arrayText, List.map_eq_nil_iff, byteRows_eq_nil_iff]
  · rw [valueLines_arrayText]
    exact mapM_rowLine fun row hrow => List.length_pos_iff.1 (length_of_mem_byteRows hrow).1
  · exact fun row hrow => length_of_mem_dropLast_byteRows hrow
  · exact fun row hrow => length_of_mem_byteRows (List.mem_of_getLast? hrow)

/-- A full row and one byte more. -/
def rowAndOne : List UInt8 := List.replicate 16 7 ++ [255]

theorem rowAndOne_lossless :
    readCommaText? (commaText rowAndOne) = some rowAndOne ∧
    (rowAndOne ≠ [] ∧ ['2', '5', '5'] ∈ (commaText rowAndOne).toList.splitOn ',' ∧
      PlainNumeral ['2', '5', '5']) ∧
    declaredLength? (arrayText "a[9]" rowAndOne) = some 17 ∧
    readValues? (initializer (arrayText "a[9]" rowAndOne)) = some rowAndOne ∧
    valueLines (arrayText "a[9]" rowAndOne) ≠ [] := by
  have hsome : rowAndOne ≠ [] := by decide
  have hpiece : ['2', '5', '5'] ∈ (commaText rowAndOne).toList.splitOn ',' := by
    rw [splitOn_commaText hsome]
    decide
  obtain ⟨⟨hcomma, -, hplain⟩, hlength, hvalues, hlines, -⟩ := byte_texts_lossless "a[9]" rowAndOne
  exact ⟨hcomma, ⟨hsome, hpiece, hplain hsome _ hpiece⟩, hlength, hvalues, mt hlines.1 hsome⟩

end LogicWiring
