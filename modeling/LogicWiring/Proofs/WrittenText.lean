-- Written values read back. The text of a value spells the tree that the value
-- stands for, without any space. Main statement: `treeOf_render`, for all
-- values whose numbers can be read.
import LogicWiring.Json.Value
import LogicWiring.Proofs.Grammar
import Mathlib.Data.List.Forall2
import Mathlib.Tactic.SplitIfs

namespace LogicWiring.Json

/-- A lexeme with a value, and with nothing wrong with its form. -/
def Reading.sound {α : Type} (a : α) : Reading α where
  value := .ok a
  formFault := none

/-! ## Strings -/

theorem hexDigit?_hexDigit : ∀ d < 16, hexDigit? (hexDigit d) = some d := by decide

/-- The two digits of a control character give its number. -/
theorem hexNumber?_control {n : Nat} (h : n < 0x20) :
    hexNumber? ['0', '0', hexDigit (n / 16), hexDigit (n % 16)] = some n := by
  have hhigh := hexDigit?_hexDigit (n / 16) (by omega)
  have hlow := hexDigit?_hexDigit (n % 16) (by omega)
  have hzero : hexDigit? '0' = some 0 := by decide
  simp only [hexNumber?, hzero, hhigh, hlow, Option.bind_eq_bind, Option.bind_some]
  congr 1
  omega

/-- How a character may be written: as it is or by its letter, or a control character by its
number. -/
def Piece.Stands (p : Piece) (c : Char) : Prop := p = .char c ∨ p = .unit c.toNat ∧ c.toNat < 0x20

/-- A character is written by its letter, by its number or as it is. -/
theorem escapeChar_cases (c : Char) :
    (∃ letter, escapeChar c = ['\\', letter] ∧ escapedChar? letter = some c) ∨
    (c.toNat < 0x20 ∧ escapeChar c =
      ['\\', 'u', '0', '0', hexDigit (c.toNat / 16), hexDigit (c.toNat % 16)]) ∨
    (c ≠ '"' ∧ c ≠ '\\' ∧ ¬ c.toNat < 0x20 ∧ escapeChar c = [c]) := by
  unfold escapeChar
  split_ifs with hquote hslash hb hf hn hr ht hc
  · exact .inl ⟨'"', rfl, by rw [hquote]; rfl⟩
  · exact .inl ⟨'\\', rfl, by rw [hslash]; rfl⟩
  · exact .inl ⟨'b', rfl, by rw [hb]; rfl⟩
  · exact .inl ⟨'f', rfl, by rw [hf]; rfl⟩
  · exact .inl ⟨'n', rfl, by rw [hn]; rfl⟩
  · exact .inl ⟨'r', rfl, by rw [hr]; rfl⟩
  · exact .inl ⟨'t', rfl, by rw [ht]; rfl⟩
  · exact .inr (.inl ⟨hc, rfl⟩)
  · exact .inr (.inr ⟨hquote, hslash, hc, rfl⟩)

theorem spelled_escapeChar (c : Char) : ∃ p : Piece, p.Stands c ∧ p.Spelled (escapeChar c) := by
  rcases escapeChar_cases c with ⟨letter, hc, hletter⟩ | ⟨hlt, hc⟩ | ⟨hquote, hslash, hlt, hc⟩
  · exact ⟨.char c, .inl rfl, hc ▸ .letter hletter⟩
  · exact ⟨.unit c.toNat, .inr ⟨rfl, hlt⟩, hc ▸ .number (hexNumber?_control hlt)⟩
  · exact ⟨.char c, .inl rfl, hc ▸ .plain hquote hslash hlt⟩

theorem pieceChars_cons {p : Piece} {c : Char} (h : p.Stands c) (ps : List Piece) :
    pieceChars (p :: ps) = (pieceChars ps).map (c :: ·) := by
  rcases h with rfl | ⟨rfl, hc⟩
  · rfl
  · have htrailing : isTrailing c.toNat = false := by
      simp only [isTrailing, Bool.and_eq_false_iff, decide_eq_false_iff_not]
      omega
    have hleading : isLeading c.toNat = false := by
      simp only [isLeading, Bool.and_eq_false_iff, decide_eq_false_iff_not]
      omega
    rw [pieceChars.eq_def]
    simp only [htrailing, hleading, Bool.false_eq_true, if_false, Char.ofNat_toNat]

theorem spelled_escaped (cs : List Char) :
    ∃ ps, SpelledPieces ps (cs.flatMap escapeChar) ∧ pieceChars ps = .ok cs := by
  induction cs with
  | nil => exact ⟨[], .nil, rfl⟩
  | cons c cs ih =>
    obtain ⟨ps, hps, hchars⟩ := ih
    obtain ⟨p, hp, hspelled⟩ := spelled_escapeChar c
    refine ⟨p :: ps, .cons hspelled hps, ?_⟩
    rw [pieceChars_cons hp, hchars]
    rfl

theorem spelled_quoted (s : String) : Token.Spelled (.text (.sound s)) (quoted s).toList := by
  obtain ⟨ps, hps, hchars⟩ := spelled_escaped s.toList
  have hread : readPieces ps = .sound s := by
    simp [readPieces, Reading.sound, hchars, hps.faultless, Except.map]
  have htext : (quoted s).toList = '"' :: (s.toList.flatMap escapeChar ++ ['"']) := by
    simp [quoted]
  rw [htext, ← hread]
  exact .text hps

/-! ## Numbers -/

theorem head_toDigits {n : Nat} (h : 0 < n) : (Nat.toDigits 10 n).head? ≠ some '0' := by
  induction n using Nat.strongRecOn with
  | _ n ih =>
    rw [Nat.toDigits_eq_if (by decide)]
    split
    · rename_i hlt
      have hdigit : ∀ d < 10, 0 < d → Nat.digitChar d ≠ '0' := by decide
      intro he
      exact hdigit n hlt h (Option.some.inj he)
    · have hhead := ih (n / 10) (by omega) (by omega)
      cases hd : Nat.toDigits 10 (n / 10) with
      | nil => exact absurd hd Nat.toDigits_ne_nil
      | cons d ds =>
        rw [hd] at hhead
        exact hhead

/-- A zero in front stands alone. -/
theorem length_toDigits_of_head {n : Nat} (h : (Nat.toDigits 10 n).head? = some '0') :
    (Nat.toDigits 10 n).length = 1 := by
  cases Nat.eq_zero_or_pos n with
  | inl hn =>
    subst hn
    rfl
  | inr hn => exact absurd h (head_toDigits hn)

theorem value_toDigits {n : Nat} (hn : n < UInt64.size) :
    NumberText.value
        { negative := false, whole := Nat.toDigits 10 n, fraction := [], exponent := none } =
      .ok (.natural (UInt64.ofNat n)) := by
  unfold NumberText.value
  simp [Nat.ofDigitChars_ten_toDigits, hn]

theorem spelled_toDigits (n : Nat) :
    SpelledNumber
      { negative := false, whole := Nat.toDigits 10 n, fraction := [], exponent := none }
      (Nat.toDigits 10 n) := by
  have hdigits : Digits (Nat.toDigits 10 n) := ⟨Nat.toDigits_ne_nil, fun c hc =>
    Nat.isDigit_of_mem_toDigits (by decide) (by decide) hc⟩
  have hspelled : SpelledNumber _ (Option.toList none ++ (Nat.toDigits 10 n ++ ([] ++ []))) :=
    .intro (by rintro c ⟨⟩) hdigits length_toDigits_of_head .absent .absent
  simpa using hspelled

theorem spelled_repr {n : Nat} (hn : n < UInt64.size) :
    Token.Spelled (.number (.sound (.natural (UInt64.ofNat n)))) n.repr.toList := by
  have hspelled := Token.Spelled.number (spelled_toDigits n)
  rw [value_toDigits hn] at hspelled
  rwa [Nat.repr_eq_ofList_toDigits, String.toList_ofList]

/-! ## The tree of a value -/

namespace Value

mutual

/-- All numbers in the value are below 2^64. -/
def InRange : Value → Prop
  | .flag _ | .text _ => True
  | .natural n => n < UInt64.size
  | .list items => itemsInRange items
  | .record members => membersInRange members

def itemsInRange : List Value → Prop
  | [] => True
  | v :: rest => v.InRange ∧ itemsInRange rest

def membersInRange : List (String × Value) → Prop
  | [] => True
  | (_, v) :: rest => v.InRange ∧ membersInRange rest

end

mutual

def tree : Value → Tree
  | .flag b => .flag b
  | .natural n => .number (.sound (.natural (UInt64.ofNat n)))
  | .text s => .text (.sound s)
  | .list items => .array (itemTrees items) none
  | .record members => .object (memberTrees members) none

def itemTrees : List Value → List Tree
  | [] => []
  | v :: rest => v.tree :: itemTrees rest

def memberTrees : List (String × Value) → List (Reading String × Tree)
  | [] => []
  | (key, v) :: rest => (.sound key, v.tree) :: memberTrees rest

end

end Value

/-! ## The text of a value -/

theorem spaced_comma : Spaced [.comma] ",".toList := .single (.mark (c := ',') rfl)

theorem spaced_intercalate {parts : List String} {ts : List (List Token)}
    (h : List.Forall₂ (fun part t => Spaced t part.toList) parts ts) :
    Spaced ([.comma].intercalate ts) (",".intercalate parts).toList := by
  induction h with
  | nil => exact .nil (by simp)
  | @cons part t parts ts hpart hparts ih =>
    cases hparts with
    | nil =>
      rw [String.intercalate_singleton, List.intercalate_singleton]
      exact hpart
    | @cons next t' parts ts hnext hparts =>
      rw [String.intercalate_cons_cons, List.intercalate_cons_of_ne_nil (List.cons_ne_nil t' ts),
        String.toList_append, String.toList_append]
      exact (hpart.append spaced_comma).append ih

/-- A list or a record stands between its brackets. -/
theorem spaced_between {text : String} {ts : List Token} (h : Spaced ts text.toList)
    {first last : Char} {t t' : Token} (hfirst : mark? first = some t) (hlast : mark? last = some t') :
    Spaced (t :: ts ++ [t']) (String.ofList [first] ++ text ++ String.ofList [last]).toList := by
  rw [String.toList_append, String.toList_append, String.toList_ofList, String.toList_ofList]
  exact ((Spaced.single (.mark hfirst)).append h).append (.single (.mark hlast))

theorem spelled_flag (b : Bool) : Token.Spelled (.flag b) (Value.flag b).render.toList := by
  cases b with
  | false => exact .word (c := 'f') rfl
  | true => exact .word (c := 't') rfl

theorem spaced_member {text : String} {ts : List Token} (h : Spaced ts text.toList) (key : String) :
    Spaced (.text (.sound key) :: .colon :: ts) (quoted key ++ ":" ++ text).toList := by
  rw [String.toList_append, String.toList_append]
  exact ((Spaced.single (spelled_quoted key)).append (.single (.mark (c := ':') rfl))).append h

mutual

theorem spells_render (v : Value) (hv : v.InRange) : v.tree.Spells v.render := by
  cases v with
  | flag b => exact .single (spelled_flag b)
  | natural n => exact .single (spelled_repr hv)
  | text s => exact .single (spelled_quoted s)
  | list items => exact spaced_between (spaced_intercalate (spaced_items items hv)) rfl rfl
  | record members =>
    exact spaced_between (spaced_intercalate (spaced_members members hv)) rfl rfl

theorem spaced_items (items : List Value) (h : Value.itemsInRange items) :
    List.Forall₂ (fun part t => Spaced t part.toList) (Value.renderItems items)
      (Tree.itemTokens (Value.itemTrees items)) := by
  cases items with
  | nil => exact .nil
  | cons v rest => exact .cons (spells_render v h.1) (spaced_items rest h.2)

theorem spaced_members (members : List (String × Value)) (h : Value.membersInRange members) :
    List.Forall₂ (fun part t => Spaced t part.toList) (Value.renderMembers members)
      (Tree.memberTokens (Value.memberTrees members)) := by
  match members with
  | [] => exact .nil
  | (key, v) :: rest =>
    exact .cons (spaced_member (spells_render v h.1) key) (spaced_members rest h.2)

end

/-- A text that was written for a value has the tree of the value, and nothing follows it. -/
theorem treeOf_render {v : Value} (hv : v.InRange) : treeOf v.render = (v.tree, false) :=
  ((Tree.spells_iff v.tree v.render).1 (spells_render v hv)).1

end LogicWiring.Json
