-- The texts that a tree can be written as: its tokens in a row, with any
-- space around them. Main statement: these are the texts in which the tree is
-- read, where some reader gets past each of its tokens (`spells_iff`).
import LogicWiring.Json.Tree
import LogicWiring.Proofs.Lexemes

namespace LogicWiring.Json

namespace Tree

/-- A tree has a property that arrays and objects get from what they hold. -/
@[elab_as_elim]
theorem induction {motive : Tree → Prop} (null : motive .null) (flag : ∀ b, motive (.flag b))
    (number : ∀ r, motive (.number r)) (text : ∀ r, motive (.text r))
    (array : ∀ items broken, (∀ t ∈ items, motive t) → motive (.array items broken))
    (object : ∀ members broken, (∀ m ∈ members, motive m.2) → motive (.object members broken))
    (faulty : ∀ f, motive (.faulty f)) (t : Tree) : motive t :=
  match t with
  | .null => null
  | .flag b => flag b
  | .number r => number r
  | .text r => text r
  | .array items broken =>
    array items broken fun t _ => induction null flag number text array object faulty t
  | .object members broken =>
    object members broken fun m _ => induction null flag number text array object faulty m.2
  | .faulty f => faulty f
termination_by sizeOf t
decreasing_by
  · have := List.sizeOf_lt_of_mem ‹t ∈ items›
    simp only [Tree.array.sizeOf_spec]
    omega
  · have := List.sizeOf_lt_of_mem ‹m ∈ members›
    obtain ⟨key, t⟩ := m
    simp only [Tree.object.sizeOf_spec, Prod.mk.sizeOf_spec] at this ⊢
    omega

/-! ## Tokens -/

/-- What is left out where an array or object breaks off. -/
def closing (t : Token) : Option Fault → Token
  | none => t
  | some f => .broken f

mutual

/-- The tokens of a tree. Where it breaks off, the last of them is broken. -/
def tokens : Tree → List Token
  | .null => [.null]
  | .flag b => [.flag b]
  | .number r => [.number r]
  | .text r => [.text r]
  | .array items broken =>
    .openBracket :: [.comma].intercalate (itemTokens items) ++ [closing .closeBracket broken]
  | .object members broken =>
    .openBrace :: [.comma].intercalate (memberTokens members) ++ [closing .closeBrace broken]
  | .faulty f => [.broken f]

def itemTokens : List Tree → List (List Token)
  | [] => []
  | t :: rest => t.tokens :: itemTokens rest

def memberTokens : List (Reading String × Tree) → List (List Token)
  | [] => []
  | (key, t) :: rest => (.text key :: .colon :: t.tokens) :: memberTokens rest

end

theorem itemTokens_eq (items : List Tree) : itemTokens items = items.map tokens := by
  induction items with
  | nil => rfl
  | cons t rest ih => rw [itemTokens, ih, List.map_cons]

theorem memberTokens_eq (members : List (Reading String × Tree)) :
    memberTokens members = members.map fun m => .text m.1 :: .colon :: m.2.tokens := by
  induction members with
  | nil => rfl
  | cons m rest ih => rw [memberTokens, ih, List.map_cons]

/-- The text is a way to write the tree. -/
def Spells (t : Tree) (text : String) : Prop := Spaced t.tokens text.toList

end Tree

/-! ## No two numbers in a row -/

theorem apart_cons {t : Token} {ts : List Token} (ht : t.isNumber = false) (h : Apart ts) :
    Apart (t :: ts) :=
  h.cons fun _ _ hn => absurd hn (by simp [ht])

theorem apart_append {t : Token} {ts ts' : List Token} (h : Apart ts) (ht : t.isNumber = false)
    (h' : Apart ts') : Apart (ts ++ t :: ts') := by
  refine List.IsChain.append h (apart_cons ht h') ?_
  rintro x _ y ⟨⟩ _
  exact ht

theorem apart_intercalate {parts : List (List Token)} (h : ∀ part ∈ parts, Apart part) :
    Apart ([.comma].intercalate parts) := by
  induction parts with
  | nil => exact .nil
  | cons part parts ih =>
    rw [List.forall_mem_cons] at h
    cases parts with
    | nil => simpa using h.1
    | cons next parts =>
      rw [List.intercalate_cons_of_ne_nil (List.cons_ne_nil _ _), List.append_assoc]
      exact apart_append h.1 rfl (ih h.2)

theorem apart_between {t t' : Token} {parts : List (List Token)} (ht : t.isNumber = false)
    (ht' : t'.isNumber = false) (h : ∀ part ∈ parts, Apart part) :
    Apart (t :: [.comma].intercalate parts ++ [t']) :=
  apart_append (apart_cons ht (apart_intercalate h)) ht' .nil

theorem Tree.apart_tokens (t : Tree) : Apart t.tokens := by
  induction t using Tree.induction with
  | null | flag | number | text | faulty => exact .singleton _
  | array items broken ih =>
    rw [Tree.tokens, itemTokens_eq]
    refine apart_between rfl (by cases broken <;> rfl) ?_
    simpa using ih
  | object members broken ih =>
    rw [Tree.tokens, memberTokens_eq]
    refine apart_between rfl (by cases broken <;> rfl) ?_
    rw [List.forall_mem_map]
    intro m hm
    exact apart_cons rfl (apart_cons rfl (ih m hm))

/-! ## What holds of all tokens -/

/-- This holds of the marks, and of no broken token. -/
structure OfMarks (p : Token → Prop) : Prop where
  mark {c : Char} {t : Token} (h : mark? c = some t) : p t
  not_broken (f : Fault) : ¬ p (.broken f)

theorem wellFormed_ofMarks : OfMarks Token.WellFormed where
  mark h := (Token.Spelled.mark h).wellFormed
  not_broken _ := id

theorem legible_ofMarks : OfMarks Token.Legible where
  mark h := (Token.Spelled.mark h).wellFormed.legible
  not_broken _ := id

namespace OfMarks

variable {p : Token → Prop}

theorem closing (hp : OfMarks p) {c : Char} {mark : Token} (h : mark? c = some mark)
    (broken : Option Fault) : p (Tree.closing mark broken) ↔ broken = none := by
  cases broken with
  | none => exact iff_of_true (hp.mark h) rfl
  | some f => exact iff_of_false (hp.not_broken f) (by rintro ⟨⟩)

theorem intercalate (hp : OfMarks p) (parts : List (List Token)) :
    (∀ token ∈ [.comma].intercalate parts, p token) ↔ ∀ part ∈ parts, ∀ token ∈ part, p token := by
  have hcomma : p .comma := hp.mark (c := ',') rfl
  induction parts with
  | nil => simp
  | cons part parts ih =>
    cases parts with
    | nil => simp
    | cons next parts =>
      rw [List.intercalate_cons_of_ne_nil (List.cons_ne_nil _ _), List.append_assoc,
        List.forall_mem_append, List.singleton_append, List.forall_mem_cons,
        List.forall_mem_cons (l := next :: parts)]
      exact and_congr_right fun _ => (and_iff_right hcomma).trans ih

theorem array (hp : OfMarks p) (items : List Tree) (broken : Option Fault) :
    (∀ token ∈ (Tree.array items broken).tokens, p token) ↔
      (∀ t ∈ items, ∀ token ∈ t.tokens, p token) ∧ broken = none := by
  have hopen : p .openBracket := hp.mark (c := '[') rfl
  rw [Tree.tokens, Tree.itemTokens_eq, List.forall_mem_append, List.forall_mem_cons,
    hp.intercalate, List.forall_mem_map, List.forall_mem_singleton, and_iff_right hopen,
    hp.closing (c := ']') rfl]

theorem object (hp : OfMarks p) (members : List (Reading String × Tree)) (broken : Option Fault) :
    (∀ token ∈ (Tree.object members broken).tokens, p token) ↔
      (∀ m ∈ members, p (.text m.1) ∧ ∀ token ∈ m.2.tokens, p token) ∧ broken = none := by
  have hopen : p .openBrace := hp.mark (c := '\x7b') rfl
  have hcolon : p .colon := hp.mark (c := ':') rfl
  rw [Tree.tokens, Tree.memberTokens_eq, List.forall_mem_append, List.forall_mem_cons,
    hp.intercalate, List.forall_mem_map, List.forall_mem_singleton, and_iff_right hopen,
    hp.closing (c := '\x7d') rfl]
  simp only [List.forall_mem_cons, and_iff_right hcolon]

end OfMarks

namespace Tree

/-- Some reader gets past each token of the tree. -/
def Legible (t : Tree) : Prop := ∀ token ∈ t.tokens, token.Legible

theorem legible_array (items : List Tree) (broken : Option Fault) :
    (array items broken).Legible ↔ (∀ t ∈ items, t.Legible) ∧ broken = none :=
  legible_ofMarks.array items broken

theorem legible_object (members : List (Reading String × Tree)) (broken : Option Fault) :
    (object members broken).Legible ↔
      (∀ m ∈ members, (Token.text m.1).Legible ∧ m.2.Legible) ∧ broken = none :=
  legible_ofMarks.object members broken

/-- Where the text breaks off, no reader gets past it. -/
theorem not_legible_breakOff (f : Fault) {t : Tree} {up : List Around} (h : t.Legible → up ≠ []) :
    ¬ (breakOff f t up).Legible := by
  induction up generalizing t with
  | nil => exact fun ht => h ht rfl
  | cons around up ih =>
    cases around with
    | array items => exact ih fun ht => by cases ((legible_array _ _).1 ht).2
    | object members key => exact ih fun ht => by cases ((legible_object _ _).1 ht).2

/-! ## From tokens to the tree -/

/-- A tree does not start with the end of an array. -/
theorem readValue_openBracket (t : Tree) (up : List Around) (rest : List Token) :
    readValue up (.openBracket :: (t.tokens ++ rest)) =
      readValue (.array [] :: up) (t.tokens ++ rest) := by
  cases t <;> rfl

theorem intercalate_comma {ts : List Token} {parts : List (List Token)} (h : parts ≠ [])
    (rest : List Token) : [Token.comma].intercalate (ts :: parts) ++ rest =
      ts ++ .comma :: ([Token.comma].intercalate parts ++ rest) := by
  rw [List.intercalate_cons_of_ne_nil h]
  simp

/-- Parts in a row start with the first of them. -/
theorem exists_later (ts : List Token) (parts : List (List Token)) (rest : List Token) :
    ∃ later, [Token.comma].intercalate (ts :: parts) ++ rest = ts ++ later := by
  cases parts with
  | nil => exact ⟨rest, by rw [List.intercalate_singleton]⟩
  | cons part parts => exact ⟨_, intercalate_comma (List.cons_ne_nil part parts) rest⟩

/-- Where a value is due, the tokens of the tree are read as the tree. -/
def IsRead (t : Tree) : Prop :=
  ∀ up rest, readValue up (t.tokens ++ rest) = readOn t up rest

/-- The items that are left of an array follow those that have been read. -/
theorem readValue_items {items : List Tree} (h : ∀ t ∈ items, t.IsRead) (hne : items ≠ [])
    (before : List Tree) (up : List Around) (rest : List Token) :
    readValue (.array before :: up)
        ([.comma].intercalate (itemTokens items) ++ .closeBracket :: rest) =
      readOn (.array (before.reverse ++ items) none) up rest := by
  induction items generalizing before with
  | nil => exact absurd rfl hne
  | cons t items ih =>
    rw [List.forall_mem_cons] at h
    cases items with
    | nil =>
      rw [itemTokens, itemTokens, List.intercalate_singleton, h.1, readOn]
      simp
    | cons next items =>
      rw [itemTokens, intercalate_comma (by simp [itemTokens]), h.1, readOn,
        ih h.2 (List.cons_ne_nil next items)]
      simp

/-- So do the members that are left of an object. -/
theorem readMember_members {members : List (Reading String × Tree)}
    (h : ∀ m ∈ members, m.2.IsRead) (hne : members ≠ []) (before : List (Reading String × Tree))
    (up : List Around) (rest : List Token) :
    readMember before up
        ([.comma].intercalate (memberTokens members) ++ .closeBrace :: rest) =
      readOn (.object (before.reverse ++ members) none) up rest := by
  induction members generalizing before with
  | nil => exact absurd rfl hne
  | cons m members ih =>
    obtain ⟨key, t⟩ := m
    rw [List.forall_mem_cons] at h
    cases members with
    | nil =>
      rw [memberTokens, memberTokens, List.intercalate_singleton, List.cons_append,
        List.cons_append, readMember, h.1, readOn]
      simp
    | cons next members =>
      rw [memberTokens, intercalate_comma (by simp [memberTokens]), List.cons_append,
        List.cons_append, readMember, h.1, readOn, ih h.2 (List.cons_ne_nil next members)]
      simp

theorem isRead_of_legible {t : Tree} (ht : t.Legible) : t.IsRead := by
  induction t using Tree.induction with
  | null | flag | number | text => exact fun up rest => rfl
  | array items broken ih =>
    obtain ⟨hitems, rfl⟩ := (legible_array items broken).1 ht
    intro up rest
    cases items with
    | nil => rfl
    | cons t items =>
      have hread := readValue_items (fun t ht => ih t ht (hitems t ht)) (List.cons_ne_nil t items)
        [] up rest
      obtain ⟨later, hlater⟩ := exists_later t.tokens (itemTokens items) (.closeBracket :: rest)
      rw [itemTokens, hlater] at hread
      rw [tokens, itemTokens, List.append_assoc, List.cons_append, closing, List.singleton_append,
        hlater, readValue_openBracket, hread]
      rfl
  | object members broken ih =>
    obtain ⟨hmembers, rfl⟩ := (legible_object members broken).1 ht
    intro up rest
    cases members with
    | nil => rfl
    | cons m members =>
      have hread := readMember_members (fun m hm => ih m hm (hmembers m hm).2)
        (List.cons_ne_nil m members) [] up rest
      obtain ⟨later, hlater⟩ := exists_later (.text m.1 :: .colon :: m.2.tokens)
        (memberTokens members) (.closeBrace :: rest)
      rw [memberTokens, hlater] at hread
      rw [tokens, memberTokens, List.append_assoc, List.cons_append, closing, List.singleton_append,
        hlater]
      exact hread
  | faulty f => exact absurd (ht _ (List.mem_singleton_self _)) id

/-! ## From the tree to tokens -/

/-- The tokens of an array up to the items that have been read, the last of them first. -/
def itemsBefore (items : List Tree) : List Token :=
  .openBracket :: (itemTokens items.reverse).flatMap (· ++ [.comma])

/-- The same for an object and its members. -/
def membersBefore (members : List (Reading String × Tree)) : List Token :=
  .openBrace :: (memberTokens members.reverse).flatMap (· ++ [.comma])

/-- The tokens in front of the place of reading. -/
def tokensBefore : List Around → List Token
  | [] => []
  | .array items :: up => tokensBefore up ++ itemsBefore items
  | .object members key :: up => tokensBefore up ++ membersBefore members ++ [.text key, .colon]

theorem itemsBefore_cons (t : Tree) (items : List Tree) :
    itemsBefore (t :: items) = itemsBefore items ++ t.tokens ++ [.comma] := by
  simp [itemsBefore, itemTokens_eq]

theorem membersBefore_cons (key : Reading String) (t : Tree)
    (members : List (Reading String × Tree)) : membersBefore ((key, t) :: members) =
      membersBefore members ++ [.text key, .colon] ++ t.tokens ++ [.comma] := by
  simp [membersBefore, memberTokens_eq]

/-- Parts with commas between them are the parts up to the last, each with a comma behind it, and
the last. -/
theorem intercalate_concat (parts : List (List Token)) (last : List Token) :
    [Token.comma].intercalate (parts ++ [last]) = parts.flatMap (· ++ [.comma]) ++ last := by
  induction parts with
  | nil => simp
  | cons part parts ih =>
    rw [List.cons_append, List.intercalate_cons_of_ne_nil (by simp), ih]
    simp

theorem tokens_array_reverse (t : Tree) (items : List Tree) :
    (array (t :: items).reverse none).tokens = itemsBefore items ++ t.tokens ++ [.closeBracket] := by
  rw [tokens, itemTokens_eq, List.reverse_cons, List.map_append, List.map_singleton,
    intercalate_concat, itemsBefore, itemTokens_eq]
  rfl

theorem tokens_object_reverse (key : Reading String) (t : Tree)
    (members : List (Reading String × Tree)) : (object ((key, t) :: members).reverse none).tokens =
      membersBefore members ++ [.text key, .colon] ++ t.tokens ++ [.closeBrace] := by
  rw [tokens, memberTokens_eq, List.reverse_cons, List.map_append, List.map_singleton,
    intercalate_concat, membersBefore, memberTokens_eq]
  simp [closing]

/-- Where it is legible, the tree that was read has the tokens up to those that are left. -/
def Covers (ts : List Token) (result : Tree × List Token) : Prop :=
  result.1.Legible → result.1.tokens ++ result.2 = ts

theorem covers_breakOff (ts : List Token) (f : Fault) {t : Tree} {up : List Around}
    (h : t.Legible → up ≠ []) : Covers ts (breakOff f t up, []) :=
  fun ht => absurd ht (not_legible_breakOff f h)

theorem not_legible_faulty (f : Fault) : ¬ (faulty f).Legible :=
  fun h => h _ (List.mem_singleton_self _)

/-- Reading loses no token. -/
theorem covers_read :
    (∀ up ts, Covers (tokensBefore up ++ ts) (readValue up ts)) ∧
    (∀ members up ts, Covers (tokensBefore up ++ membersBefore members ++ ts)
      (readMember members up ts)) ∧
    (∀ t up ts, Covers (tokensBefore up ++ t.tokens ++ ts) (readOn t up ts)) := by
  apply readValue.mutual_induct_unfolding
    (fun up ts => Covers (tokensBefore up ++ ts))
    (fun members up ts => Covers (tokensBefore up ++ membersBefore members ++ ts))
    (fun t up ts => Covers (tokensBefore up ++ t.tokens ++ ts))
  -- Where the text breaks off, there is nothing to show: the tree is not legible.
  case case9 => exact fun up f _ => covers_breakOff _ f fun h => absurd h (not_legible_faulty f)
  case case10 =>
    intros
    rw [readValue] <;> try assumption
    exact covers_breakOff _ _ fun h => absurd h (not_legible_faulty _)
  case case12 =>
    intros
    rw [readMember] <;> try assumption
    exact covers_breakOff _ _ fun _ => List.cons_ne_nil _ _
  case case13 =>
    intros
    rw [readMember] <;> try assumption
    exact covers_breakOff _ _ fun h => by cases ((legible_object _ _).1 h).2
  case case14 => exact fun t rest _ => by rw [readOn]; rfl
  case case19 =>
    intro t up rest hup
    intros
    rw [readOn] <;> try assumption
    exact covers_breakOff _ _ fun _ => hup
  -- Everywhere else a token goes over to what has been read.
  case case6 =>
    intro up rest hclose ih
    rw [readValue] <;> try assumption
    simpa [tokensBefore, itemsBefore, itemTokens] using ih
  case case8 =>
    intro up rest hclose ih
    rw [readValue] <;> try assumption
    simpa [membersBefore, memberTokens] using ih
  case case11 =>
    intro members up key rest ih
    simpa [readMember, tokensBefore] using ih
  case case15 =>
    intro t items up rest ih
    simpa [readOn, tokensBefore, itemsBefore_cons] using ih
  case case16 =>
    intro t items up rest ih
    rw [tokens_array_reverse] at ih
    simpa [readOn, tokensBefore] using ih
  case case17 =>
    intro t members key up rest ih
    simpa [readOn, tokensBefore, membersBefore_cons] using ih
  case case18 =>
    intro t members key up rest ih
    rw [tokens_object_reverse] at ih
    simpa [readOn, tokensBefore] using ih
  all_goals
    intros
    rename_i ih
    simpa [readValue, tokens, itemTokens, memberTokens, closing] using ih

end Tree

/-! ## Texts -/

/-- A tree is spelled by the texts in which it is read, where it can be read at all. -/
theorem Tree.spells_iff (t : Tree) (text : String) :
    t.Spells text ↔ treeOf text = (t, false) ∧ t.Legible := by
  constructor
  · intro h
    have hlegible : t.Legible := fun token ht => (h.wellFormed token ht).legible
    have hread := isRead_of_legible hlegible [] []
    rw [List.append_nil] at hread
    unfold treeOf
    rw [tokens_of_spaced h t.apart_tokens, hread]
    exact ⟨rfl, hlegible⟩
  · rintro ⟨hread, hlegible⟩
    unfold treeOf at hread
    obtain ⟨htree, hrest⟩ := Prod.mk.inj hread
    have hcovers := covers_read.1 [] (Json.tokens text.toList)
    have hnil : (readValue [] (Json.tokens text.toList)).2 = [] := by simpa using hrest
    unfold Covers at hcovers
    rw [htree, hnil, List.append_nil] at hcovers
    have htokens : t.tokens = Json.tokens text.toList := hcovers hlegible
    have hspaced : Spaced (Json.tokens text.toList) text.toList :=
      spaced_tokens (htokens ▸ hlegible)
    rwa [← htokens] at hspaced

/-- A text spells one tree. -/
theorem Tree.Spells.unique {t t' : Tree} {text : String} (h : t.Spells text)
    (h' : t'.Spells text) : t = t' := by
  have hread := ((spells_iff t text).1 h).1
  rw [((spells_iff t' text).1 h').1] at hread
  exact (congrArg Prod.fst hread).symm

/-! ## Trees without a fault -/

namespace Tree

theorem itemsFormFault_eq_none_iff (items : List Tree) :
    itemsFormFault items = none ↔ ∀ t ∈ items, t.formFault = none := by
  induction items with
  | nil => simp [itemsFormFault]
  | cons t items ih => rw [itemsFormFault, Option.or_eq_none_iff, ih, List.forall_mem_cons]

theorem membersFormFault_eq_none_iff (members : List (Reading String × Tree)) :
    membersFormFault members = none ↔
      ∀ m ∈ members, m.1.formFault = none ∧ m.2.formFault = none := by
  induction members with
  | nil => simp [membersFormFault]
  | cons m members ih =>
    rw [membersFormFault, Option.or_eq_none_iff, Option.or_eq_none_iff, ih, List.forall_mem_cons,
      and_assoc]

theorem formFault_eq_none_iff (t : Tree) :
    t.formFault = none ↔ ∀ token ∈ t.tokens, token.WellFormed := by
  induction t using Tree.induction with
  | null | flag => simp [formFault, tokens, Token.WellFormed]
  | number r | text r => simp [formFault, tokens, Token.WellFormed]
  | array items broken ih =>
    rw [formFault, Option.or_eq_none_iff, itemsFormFault_eq_none_iff, wellFormed_ofMarks.array]
    exact and_congr_left' (forall₂_congr ih)
  | object members broken ih =>
    rw [formFault, Option.or_eq_none_iff, membersFormFault_eq_none_iff, wellFormed_ofMarks.object]
    exact and_congr_left' (forall₂_congr fun m hm => and_congr_right' (ih m hm))
  | faulty f => simp [formFault, tokens, Token.WellFormed]

theorem legible_of_formFault {t : Tree} (h : t.formFault = none) : t.Legible := fun token htoken =>
  ((formFault_eq_none_iff t).1 h token htoken).legible

theorem itemsValueFault_eq_none_iff (depth : Nat) (items : List Tree) :
    itemsValueFault depth items = none ↔ ∀ t ∈ items, t.valueFault depth = none := by
  induction items with
  | nil => simp [itemsValueFault]
  | cons t items ih => rw [itemsValueFault, Option.or_eq_none_iff, ih, List.forall_mem_cons]

theorem membersValueFault_eq_none_iff (depth : Nat) (members : List (Reading String × Tree)) :
    membersValueFault depth members = none ↔
      ∀ m ∈ members, m.1.valueFault = none ∧ m.2.valueFault depth = none := by
  induction members with
  | nil => simp [membersValueFault]
  | cons m members ih =>
    rw [membersValueFault, Option.or_eq_none_iff, Option.or_eq_none_iff, ih, List.forall_mem_cons,
      and_assoc]

end Tree

theorem Reading.exists_value {α : Type} {r : Reading α} (h : r.valueFault = none) :
    ∃ a, r.value = .ok a := by
  unfold Reading.valueFault at h
  split at h
  · exact ⟨_, ‹_›⟩
  · cases h

namespace Tree

theorem legible_of_valueFault {t : Tree} {depth : Nat} (h : t.valueFault depth = none) :
    t.Legible := by
  induction t using Tree.induction generalizing depth with
  | null | flag => exact List.forall_mem_singleton.2 trivial
  | number r | text r => exact List.forall_mem_singleton.2 (.inl (Reading.exists_value h))
  | array items broken ih =>
    cases depth with
    | zero => cases h
    | succ depth =>
      rw [valueFault, Option.or_eq_none_iff, itemsValueFault_eq_none_iff] at h
      exact (legible_array items broken).2 ⟨fun t ht => ih t ht (h.1 t ht), h.2⟩
  | object members broken ih =>
    cases depth with
    | zero => cases h
    | succ depth =>
      rw [valueFault, Option.or_eq_none_iff, membersValueFault_eq_none_iff] at h
      exact (legible_object members broken).2
        ⟨fun m hm => ⟨.inl (Reading.exists_value (h.1 m hm).1), ih m hm (h.1 m hm).2⟩, h.2⟩
  | faulty f => cases h

end Tree

end LogicWiring.Json
