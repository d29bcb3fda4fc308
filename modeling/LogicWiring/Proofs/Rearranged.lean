-- The texts of one document. An editor may write the members of an object in
-- any order, with any space between the tokens, and may keep members of its
-- own beside the fields. Main statement: `loadProject_rearranged`.
import LogicWiring.Project
import LogicWiring.Proofs.Records
import LogicWiring.Proofs.SavedDocument
import Mathlib

namespace LogicWiring

open Json

namespace Json

/-! ## Readings with the same result -/

/-- Both give the same value, or both fail. -/
def SameValue {α : Type} (x y : Except Fault α) : Prop := ∀ a, x = .ok a ↔ y = .ok a

namespace SameValue

variable {α β : Type} {x y : Except Fault α}

theorem refl (x : Except Fault α) : SameValue x x := fun _ => Iff.rfl

theorem symm (h : SameValue x y) : SameValue y x := fun a => (h a).symm

theorem trans {z : Except Fault α} (h : SameValue x y) (h' : SameValue y z) : SameValue x z :=
  fun a => (h a).trans (h' a)

theorem bind (h : SameValue x y) {f g : α → Except Fault β} (hfg : ∀ a, SameValue (f a) (g a)) :
    SameValue (x >>= f) (y >>= g) := by
  intro b
  rw [bind_eq_ok, bind_eq_ok]
  exact exists_congr fun a => and_congr (h a) (hfg a b)

theorem map (h : SameValue x y) (f : α → β) : SameValue (x.map f) (y.map f) := by
  intro b
  rw [map_eq_ok, map_eq_ok]
  exact exists_congr fun a => and_congr_left' (h a)

end SameValue

/-! ## Edits -/

/-- The tree can be written as a text: it is one that the grammar knows. -/
def Tree.Grammatical (t : Tree) : Prop := ∃ text, t.Spells text

theorem Tree.Grammatical.formFault {t : Tree} (h : t.Grammatical) : t.formFault = none := by
  obtain ⟨text, hspells⟩ := h
  exact (Tree.formFault_eq_none_iff t).2 hspells.wellFormed

/-- One change of an object that stands for a record: its members in another order, one member
more that is no field, or a change inside the value of a field. -/
inductive RecordEdit (fields : List String) (inside : String → Tree → Tree → Prop) :
    Tree → Tree → Prop
  | reorder {members members' : List (Reading String × Tree)} (h : members.Perm members') :
    RecordEdit fields inside (.object members none) (.object members' none)
  | insert {key : Reading String} {name : String} {t : Tree} (hname : key.value = .ok name)
    (hextra : name ∉ fields) (ht : t.Grammatical) (before after : List (Reading String × Tree)) :
    RecordEdit fields inside (.object (before ++ after) none)
      (.object (before ++ (key, t) :: after) none)
  | within {key : Reading String} {name : String} {t t' : Tree} (hname : key.value = .ok name)
    (h : inside name t t') (before after : List (Reading String × Tree)) :
    RecordEdit fields inside (.object (before ++ (key, t) :: after) none)
      (.object (before ++ (key, t') :: after) none)

/-- One change of an array: a change of one item. -/
inductive ListEdit (edit : Tree → Tree → Prop) : Tree → Tree → Prop
  | item {t t' : Tree} (h : edit t t') (before after : List Tree) :
    ListEdit edit (.array (before ++ t :: after) none) (.array (before ++ t' :: after) none)

theorem RecordEdit.sameValue {α : Type} {r : Record α} {slots : List (Slot α)}
    (hr : r.Slotted slots) {inside : String → Tree → Tree → Prop}
    (hinside : ∀ name t t', inside name t t' →
      ∃ s ∈ slots, s.name = name ∧ SameValue (s.read t) (s.read t'))
    {t t' : Tree} (h : RecordEdit r.fields inside t t') : SameValue (r.read t) (r.read t') := by
  intro a
  cases h with
  | reorder h =>
    rw [Record.read_object_eq_ok_iff, Record.read_object_eq_ok_iff]
    exact and_congr_left' ⟨fun hholds => hholds.perm hr h, fun hholds => hholds.perm hr h.symm⟩
  | insert hname hextra ht before after =>
    rw [Record.read_object_eq_ok_iff, Record.read_object_eq_ok_iff,
      Record.holds_insert_iff hname hextra ht.formFault]
  | @within key name t t' hname h before after =>
    obtain ⟨s, hs, rfl, hread⟩ := hinside name t t' h
    have hfield : s.name ∈ r.fields := hr.fields ▸ List.mem_map_of_mem hs
    have hset : ∀ a, SameValue (r.set s.name t a) (r.set s.name t' a) := by
      intro a
      rw [hr.set s hs, hr.set s hs]
      exact hread.map _
    rw [Record.read_object_eq_ok_iff, Record.read_object_eq_ok_iff]
    exact and_congr_left' ⟨Record.Holds.within hname hfield fun a b => (hset a b).1,
      Record.Holds.within hname hfield fun a b => (hset a b).2⟩

theorem readList_array {α : Type} (read : Tree → Except Fault α) (items : List Tree) :
    (Tree.array items none).readList read = items.mapM read := by
  simp only [Tree.readList]
  cases items.mapM read with
  | error f => rfl
  | ok as => rfl

theorem ListEdit.sameValue {α : Type} {read : Tree → Except Fault α} {edit : Tree → Tree → Prop}
    {t t' : Tree} (h : ListEdit edit t t')
    (hedit : ∀ t t', edit t t' → SameValue (read t) (read t')) :
    SameValue (t.readList read) (t'.readList read) := by
  obtain ⟨h, before, after⟩ := h
  rw [readList_array, readList_array, List.mapM_append, List.mapM_append, List.mapM_cons,
    List.mapM_cons]
  refine (SameValue.refl _).bind fun as => SameValue.bind ?_ fun bs => .refl _
  exact (hedit _ _ h).bind fun a => .refl _

end Json

/-! ## Edits of a document -/

def SettingsEdit : Tree → Tree → Prop :=
  RecordEdit NodeSettings.form.fields fun _ _ _ => False

def NodeEdit : Tree → Tree → Prop :=
  RecordEdit NodeEntry.form.fields fun name t t' => name = "data" ∧ SettingsEdit t t'

def EdgeEdit : Tree → Tree → Prop :=
  RecordEdit EdgeEntry.form.fields fun _ _ _ => False

def DocumentEdit : Tree → Tree → Prop :=
  RecordEdit Document.form.fields fun name t t' =>
    name = "nodes" ∧ ListEdit NodeEdit t t' ∨ name = "edges" ∧ ListEdit EdgeEdit t t'

theorem SettingsEdit.sameValue {t t' : Tree} (h : SettingsEdit t t') :
    SameValue (NodeSettings.form.read t) (NodeSettings.form.read t') :=
  RecordEdit.sameValue NodeSettings.form_slotted (by rintro name t t' ⟨⟩) h

theorem NodeEdit.sameValue {t t' : Tree} (h : NodeEdit t t') :
    SameValue (NodeEntry.form.read t) (NodeEntry.form.read t') := by
  refine RecordEdit.sameValue NodeEntry.form_slotted ?_ h
  rintro name t t' ⟨rfl, hedit⟩
  exact ⟨NodeEntry.slots[2], List.getElem_mem _, rfl, hedit.sameValue⟩

theorem EdgeEdit.sameValue {t t' : Tree} (h : EdgeEdit t t') :
    SameValue (EdgeEntry.form.read t) (EdgeEntry.form.read t') :=
  RecordEdit.sameValue EdgeEntry.form_slotted (by rintro name t t' ⟨⟩) h

theorem DocumentEdit.sameValue {t t' : Tree} (h : DocumentEdit t t') :
    SameValue (Document.form.read t) (Document.form.read t') := by
  refine RecordEdit.sameValue Document.form_slotted ?_ h
  rintro name t t' (⟨rfl, hedit⟩ | ⟨rfl, hedit⟩)
  · exact ⟨Document.slots[0], List.getElem_mem _, rfl,
      ListEdit.sameValue hedit fun _ _ => NodeEdit.sameValue⟩
  · exact ⟨Document.slots[1], List.getElem_mem _, rfl,
      ListEdit.sameValue hedit fun _ _ => EdgeEdit.sameValue⟩

/-- Edits lead from one tree to the other, each of them forward or back. -/
def Rearranged : Tree → Tree → Prop := Relation.EqvGen DocumentEdit

theorem Rearranged.sameValue {t t' : Tree} (h : Rearranged t t') :
    SameValue (Document.form.read t) (Document.form.read t') := by
  induction h with
  | rel t t' h => exact h.sameValue
  | refl t => exact .refl _
  | symm t t' _ ih => exact ih.symm
  | trans t t' t'' _ _ ih ih' => exact ih.trans ih'

/-! ## Texts of a document -/

theorem Document.ofText_eq_ok_iff (text : String) (d : Document) :
    ofText text = .ok d ↔ ∃ t, t.Spells text ∧ form.read t = .ok d := by
  constructor
  · intro h
    obtain ⟨d', hread, hend⟩ := bind_eq_ok.1 h
    split at hend
    · cases hend
    · rename_i hfollowed
      cases hend
      refine ⟨(treeOf text).1, (Tree.spells_iff _ _).2 ⟨?_, form_slotted.legible_of_read _ _ hread⟩,
        hread⟩
      exact Prod.ext rfl (by simpa [treeOf] using hfollowed)
  · rintro ⟨t, hspells, hread⟩
    unfold ofText
    rw [((Tree.spells_iff t text).1 hspells).1]
    simp only [hread]
    rfl

/-- Every text of a document is spelled by a tree. All texts of this tree, and of all trees that
edits make of it, are loaded alike: they give the same project, or fail alike after the document has
been read. -/
theorem loadProject_rearranged :
    (∀ text d, Document.ofText text = .ok d → ∃ t : Tree, t.Spells text) ∧
      ∀ text d, Document.ofText text = .ok d → ∀ t : Tree, t.Spells text →
        ∀ t' text', Rearranged t t' → t'.Spells text' →
          ∀ chosen, loadProject text' chosen = loadProject text chosen ∧
            ∀ fault, loadProject text chosen ≠ .error (.json fault) := by
  constructor
  · intro text d hd
    obtain ⟨t, hspells, -⟩ := (Document.ofText_eq_ok_iff text d).1 hd
    exact ⟨t, hspells⟩
  · intro text d hd t hspells t' text' hedits hspells' chosen
    obtain ⟨t₀, hspells₀, hread⟩ := (Document.ofText_eq_ok_iff text d).1 hd
    obtain rfl : t₀ = t := hspells₀.unique hspells
    have hd' : Document.ofText text' = .ok d :=
      (Document.ofText_eq_ok_iff text' d).2 ⟨t', hspells', (hedits.sameValue d).1 hread⟩
    rw [loadProject_of_document hd, loadProject_of_document hd']
    exact ⟨rfl, d.toProject_pastText chosen⟩

/-! A drawing as it is needed, and the same drawing from an editor that keeps a view beside it, in
which a name comes twice, and a note with half of a character beside the node. -/

def bareDrawing : String :=
  "\x7b\"nodes\":[\x7b\"id\":\"a\",\"type\":\"inputNode\",\"data\":\x7b\"pin\":2\x7d\x7d],\"edges\":[]\x7d"

def editorDrawing : String :=
  "\x7b \"edges\": [ ], \"view\": \x7b\"zoom\": -1.5, \"at\": [[0]], \"at\": null\x7d,
    \"nodes\": [ \x7b\"type\": \"inputNode\", \"data\": \x7b\"pin\": 2\x7d,
      \"note\": \"\\ud800\", \"id\": \"a\"\x7d ] \x7d"

def bareId : Json.Reading String × Tree := (.sound "id", .text (.sound "a"))

def bareType : Json.Reading String × Tree := (.sound "type", .text (.sound "inputNode"))

def bareData : Json.Reading String × Tree :=
  (.sound "data", .object [(.sound "pin", .number (.sound (.natural 2)))] none)

def bareEdges : Json.Reading String × Tree := (.sound "edges", .array [] none)

def editorView : Tree :=
  .object [(.sound "zoom", .number (.sound .other)),
    (.sound "at", .array [.array [.number (.sound (.natural 0))] none] none),
    (.sound "at", .null)] none

def editorNote : Tree := .text ⟨.error .malformed, none⟩

def bareTree : Tree :=
  .object [(.sound "nodes", .array [.object [bareId, bareType, bareData] none] none), bareEdges] none

def editorTree : Tree :=
  .object [bareEdges, (.sound "view", editorView), (.sound "nodes",
    .array [.object [bareType, bareData, (.sound "note", editorNote), bareId] none] none)] none

theorem bareTree_spells : bareTree.Spells bareDrawing :=
  (Tree.spells_iff _ _).2 ⟨by cbv, Tree.legible_of_formFault rfl⟩

theorem editorTree_spells : editorTree.Spells editorDrawing :=
  (Tree.spells_iff _ _).2 ⟨by cbv, Tree.legible_of_formFault rfl⟩

theorem bareTree_rearranged : Rearranged bareTree editorTree := by
  have hview : editorView.Grammatical :=
    ⟨"\x7b\"zoom\":-1.5,\"at\":[[0]],\"at\":null\x7d",
      (Tree.spells_iff _ _).2 ⟨by cbv, Tree.legible_of_formFault rfl⟩⟩
  have hnote : editorNote.Grammatical :=
    ⟨"\"\\ud800\"", (Tree.spells_iff _ _).2 ⟨by cbv, Tree.legible_of_formFault rfl⟩⟩
  have hinsert : NodeEdit (.object [bareId, bareType, bareData] none)
      (.object [(.sound "note", editorNote), bareId, bareType, bareData] none) :=
    .insert rfl (by decide) hnote [] [bareId, bareType, bareData]
  have hturn : NodeEdit (.object [(.sound "note", editorNote), bareId, bareType, bareData] none)
      (.object [bareType, bareData, (.sound "note", editorNote), bareId] none) :=
    .reorder (@List.perm_append_comm _ [(Json.Reading.sound "note", editorNote), bareId]
      [bareType, bareData])
  have hwithin : ∀ t t', NodeEdit t t' → Rearranged
      (.object [(.sound "nodes", .array [t] none), bareEdges] none)
      (.object [(.sound "nodes", .array [t'] none), bareEdges] none) := fun t t' h =>
    .rel _ _ (.within rfl (.inl ⟨rfl, .item h [] []⟩) [] [bareEdges])
  refine (hwithin _ _ hinsert).trans _ _ _ ((hwithin _ _ hturn).trans _ _ _ ?_)
  refine .trans _ _ _ (.rel _ _ (.reorder (List.Perm.swap _ _ []))) ?_
  exact .rel _ _ (.insert rfl (by decide) hview [bareEdges] _)

theorem editorDrawing_loaded :
    Document.ofText bareDrawing =
        .ok ⟨[⟨"a", "inputNode", { pin := some (.number 2) }⟩], [], none⟩ ∧
      (∃ t : Tree, t.Spells bareDrawing) ∧
      bareTree.Spells bareDrawing ∧ Rearranged bareTree editorTree ∧
      editorTree.Spells editorDrawing ∧
      ∀ chosen, loadProject editorDrawing chosen = loadProject bareDrawing chosen ∧
        ∀ fault, loadProject bareDrawing chosen ≠ .error (.json fault) := by
  have hd : Document.ofText bareDrawing =
      .ok ⟨[⟨"a", "inputNode", { pin := some (.number 2) }⟩], [], none⟩ := by cbv
  exact ⟨hd, loadProject_rearranged.1 bareDrawing _ hd, bareTree_spells, bareTree_rearranged,
    editorTree_spells, loadProject_rearranged.2 bareDrawing _ hd bareTree bareTree_spells editorTree
      editorDrawing bareTree_rearranged editorTree_spells⟩

end LogicWiring
