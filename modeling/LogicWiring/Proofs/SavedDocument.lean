-- A saved document read again. Each record is written as members that stand
-- in the order of its fields, so reading sets the fields one after the other.
-- What is wrong with a text is found before all else, so texts of the same
-- document are loaded alike. Main statement: `resaved_exact`.
import LogicWiring.Document.Writer
import LogicWiring.Proofs.Conversion
import LogicWiring.Proofs.Records
import LogicWiring.Proofs.WrittenText
import Mathlib

namespace LogicWiring

open Json

/-! ## Members of a record -/

namespace Json

/-- No value is written as null. -/
theorem readOptional_tree {α : Type} (read : Tree → Except Fault α) (v : Value) :
    v.tree.readOptional read = (read v.tree).map some := by
  cases v <;> rfl

theorem mapM_itemTrees {α : Type} {read : Tree → Except Fault α} {value : α → Value}
    (h : ∀ a, read (value a).tree = .ok a) (as : List α) :
    (Value.itemTrees (as.map value)).mapM read = .ok as := by
  induction as with
  | nil => rfl
  | cons a as ih =>
    rw [List.map_cons, Value.itemTrees, List.mapM_cons, h a, ih]
    rfl

/-- A list is read by its items. -/
theorem readList_tree {α : Type} {read : Tree → Except Fault α} {value : α → Value}
    (h : ∀ a, read (value a).tree = .ok a) (as : List α) :
    (Value.list (as.map value)).tree.readList read = .ok as := by
  simp [Value.tree, Tree.readList, mapM_itemTrees h]

namespace Record

variable {α β : Type} {r : Record β}

/-- The members have some of these names, in this order, and setting them one after the
other makes `b` of `a`. -/
structure Sets (r : Record β) (names : List String) (members : List (String × Value))
    (a b : β) : Prop where
  ordered : (members.map Prod.fst).Sublist names
  set : members.foldlM (fun b member => r.set member.1 member.2.tree b) a = .ok b

theorem Sets.single {name : String} {v : Value} {a b : β} (h : r.set name v.tree a = .ok b) :
    r.Sets [name] [(name, v)] a b where
  ordered := List.Sublist.refl _
  set := by
    rw [List.foldlM_cons, h]
    rfl

theorem Sets.append {names names' : List String} {members members' : List (String × Value)}
    {a b c : β} (h : r.Sets names members a b) (h' : r.Sets names' members' b c) :
    r.Sets (names ++ names') (members ++ members') a c where
  ordered := by
    rw [List.map_append]
    exact h.ordered.append h'.ordered
  set := by
    rw [List.foldlM_append, h.set]
    exact h'.set

/-- `put` is the record with a value in its field. A value that is left out leaves the field
as it was. -/
theorem Sets.optional {value : α → Value} {read : Tree → Except Fault α} (name : String)
    (put : Option α → β) (hread : ∀ a, read (value a).tree = .ok a)
    (hset : ∀ t, r.set name t (put none) = (t.readOptional read).map put) (o : Option α) :
    r.Sets [name] (optionalMember name value o) (put none) (put o) := by
  cases o with
  | none => exact ⟨List.nil_sublist _, rfl⟩
  | some a =>
    apply Sets.single
    rw [hset, readOptional_tree, hread]
    rfl

/-- All members are fields. -/
theorem known_memberTrees {members : List (String × Value)}
    (h : ∀ name ∈ members.map Prod.fst, name ∈ r.fields) :
    r.known (Value.memberTrees members) = members.map fun m => (m.1, m.2.tree) := by
  induction members with
  | nil => rfl
  | cons member members ih =>
    obtain ⟨name, v⟩ := member
    rw [List.map_cons, List.forall_mem_cons] at h
    rw [Value.memberTrees, known_cons_field rfl h.1, ih h.2, List.map_cons]

theorem passes_memberTrees {members : List (String × Value)}
    (h : ∀ name ∈ members.map Prod.fst, name ∈ r.fields) :
    ∀ m ∈ Value.memberTrees members, r.Passes m := by
  induction members with
  | nil => exact fun m hm => absurd hm List.not_mem_nil
  | cons member members ih =>
    obtain ⟨name, v⟩ := member
    rw [List.map_cons, List.forall_mem_cons] at h
    exact List.forall_mem_cons.2 ⟨passes_of_field rfl h.1 v.tree, ih h.2⟩

/-- A record is read back from the members that make it. -/
theorem Sets.read {members : List (String × Value)} {b : β}
    (h : r.Sets r.fields members r.blank b) (hfields : r.fields.Nodup)
    (hrequired : ∀ name ∈ r.required, name ∈ members.map Prod.fst) :
    r.read (Value.record members).tree = .ok b := by
  have hmembers : ∀ name ∈ members.map Prod.fst, name ∈ r.fields := fun _ hn => h.ordered.subset hn
  have hknown := known_memberTrees hmembers
  have hnames : (r.known (Value.memberTrees members)).map Prod.fst = members.map Prod.fst := by
    rw [hknown, List.map_map]
    rfl
  refine (read_object_eq_ok_iff _ none b).2 ⟨⟨passes_memberTrees hmembers, ?_, ?_, ?_⟩, rfl⟩
  · exact hnames ▸ h.ordered.nodup hfields
  · exact hnames ▸ hrequired
  · rw [hknown, setAll, List.foldlM_map]
    exact h.set

end Record

end Json

/-! ## Reading each part back -/

theorem readText_text (s : String) : (Value.text s).tree.readText = .ok s := rfl

theorem readWord32_word32Value (n : UInt32) : (word32Value n).tree.readWord32 = .ok n := by
  have hlt : n.toNat < UInt32.size := n.toNat_lt
  simp [word32Value, Value.tree, Reading.sound, Tree.readWord32, hlt]

theorem readKept_pin (p : PinSetting) : readKept PinSetting.ofTree? p.toValue.tree = .ok p := by
  cases p with
  | number n =>
    unfold readKept
    simp [PinSetting.toValue, Value.tree, Tree.valueFault, Reading.valueFault, Reading.sound,
      PinSetting.ofTree?]
  | label s => rfl

theorem readKept_initial (i : InitialSetting) :
    readKept InitialSetting.ofTree? i.toValue.tree = .ok i := by
  cases i with
  | flag b => rfl
  | level n =>
    have hlt : n.toNat < UInt32.size := n.toNat_lt
    unfold readKept
    simp [InitialSetting.toValue, word32Value, Value.tree, Tree.valueFault, Reading.valueFault,
      Reading.sound, InitialSetting.ofTree?, hlt]

namespace NodeSettings

theorem read_toValue (s : NodeSettings) : form.read s.toValue.tree = .ok s := by
  obtain ⟨pin, inputs, min, max, operator, pulseMs, intervalMs, initialState, outputWidth⟩ := s
  have hpin : form.Sets _ _ _ _ :=
    .optional "pin" (fun o => ⟨o, none, none, none, none, none, none, none, none⟩)
      readKept_pin (fun _ => rfl) pin
  have hinputs : form.Sets _ _ _ _ :=
    .optional "inputs" (fun o => ⟨pin, o, none, none, none, none, none, none, none⟩)
      readWord32_word32Value (fun _ => rfl) inputs
  have hmin : form.Sets _ _ _ _ :=
    .optional "min" (fun o => ⟨pin, inputs, o, none, none, none, none, none, none⟩)
      readWord32_word32Value (fun _ => rfl) min
  have hmax : form.Sets _ _ _ _ :=
    .optional "max" (fun o => ⟨pin, inputs, min, o, none, none, none, none, none⟩)
      readWord32_word32Value (fun _ => rfl) max
  have hoperator : form.Sets _ _ _ _ :=
    .optional "operator" (fun o => ⟨pin, inputs, min, max, o, none, none, none, none⟩)
      readText_text (fun _ => rfl) operator
  have hpulse : form.Sets _ _ _ _ :=
    .optional "pulseMs" (fun o => ⟨pin, inputs, min, max, operator, o, none, none, none⟩)
      readWord32_word32Value (fun _ => rfl) pulseMs
  have hinterval : form.Sets _ _ _ _ :=
    .optional "intervalMs" (fun o => ⟨pin, inputs, min, max, operator, pulseMs, o, none, none⟩)
      readWord32_word32Value (fun _ => rfl) intervalMs
  have hinitial : form.Sets _ _ _ _ :=
    .optional "initialState"
      (fun o => ⟨pin, inputs, min, max, operator, pulseMs, intervalMs, o, none⟩)
      readKept_initial (fun _ => rfl) initialState
  have hwidth : form.Sets _ _ _ _ :=
    .optional "outputWidth"
      (fun o => ⟨pin, inputs, min, max, operator, pulseMs, intervalMs, initialState, o⟩)
      readWord32_word32Value (fun _ => rfl) outputWidth
  have hall := (((((((hpin.append hinputs).append hmin).append hmax).append hoperator).append
    hpulse).append hinterval).append hinitial).append hwidth
  exact hall.read (by decide) (by simp [form])

end NodeSettings

theorem NodeEntry.read_toValue (n : NodeEntry) : form.read n.toValue.tree = .ok n := by
  obtain ⟨id, type, settings⟩ := n
  have hhead : form.Sets ["id", "type"] [("id", .text id), ("type", .text type)] form.blank
      ⟨id, type, {}⟩ := ⟨.refl _, rfl⟩
  have hdata : form.Sets ["data"] [("data", settings.toValue)] ⟨id, type, {}⟩
      ⟨id, type, settings⟩ := by
    apply Record.Sets.single
    simp only [form, setField, settings.read_toValue]
    rfl
  exact (hhead.append hdata).read (by decide) (by simp [form])

theorem EdgeEntry.read_toValue (e : EdgeEntry) : form.read e.toValue.tree = .ok e := by
  obtain ⟨id, source, sourceHandle, target, targetHandle⟩ := e
  have hid : form.Sets _ _ _ _ :=
    .optional "id" (fun o => ⟨o, "", "out", "", "in"⟩) readText_text (fun _ => rfl) id
  have hends : form.Sets ["source", "sourceHandle", "target", "targetHandle"]
      [("source", .text source), ("sourceHandle", .text sourceHandle),
        ("target", .text target), ("targetHandle", .text targetHandle)]
      ⟨id, "", "out", "", "in"⟩ ⟨id, source, sourceHandle, target, targetHandle⟩ :=
    ⟨.refl _, rfl⟩
  exact (hid.append hends).read (by decide) (by simp [form])

theorem Document.read_toValue (d : Document) : form.read d.toValue.tree = .ok d := by
  obtain ⟨nodes, edges, board⟩ := d
  have hnodes : form.Sets ["nodes"] [("nodes", .list (nodes.map NodeEntry.toValue))] form.blank
      ⟨nodes, [], none⟩ := by
    apply Record.Sets.single
    simp only [form, setField, readList_tree NodeEntry.read_toValue]
    rfl
  have hedges : form.Sets ["edges"] [("edges", .list (edges.map EdgeEntry.toValue))]
      ⟨nodes, [], none⟩ ⟨nodes, edges, none⟩ := by
    apply Record.Sets.single
    simp only [form, setField, readList_tree EdgeEntry.read_toValue]
    rfl
  have hboard : form.Sets _ _ _ _ :=
    .optional "board" (fun o => ⟨nodes, edges, o⟩) readText_text (fun _ => rfl) board
  exact ((hnodes.append hedges).append hboard).read (by decide) (by simp [form])

/-! ## Numbers in range -/

namespace Json.Value

theorem membersInRange_append {members members' : List (String × Value)}
    (h : membersInRange members) (h' : membersInRange members') :
    membersInRange (members ++ members') := by
  induction members with
  | nil => exact h'
  | cons member members ih => exact ⟨h.1, ih h.2⟩

theorem itemsInRange_map {α : Type} {value : α → Value} (h : ∀ a, (value a).InRange)
    (as : List α) : itemsInRange (as.map value) := by
  induction as with
  | nil => trivial
  | cons a as ih => exact ⟨h a, ih⟩

theorem membersInRange_optional {α : Type} {value : α → Value} (h : ∀ a, (value a).InRange)
    (name : String) (o : Option α) : membersInRange (optionalMember name value o) := by
  cases o with
  | none => trivial
  | some a => exact ⟨h a, trivial⟩

end Json.Value

theorem text_inRange (s : String) : (Value.text s).InRange := trivial

theorem word32Value_inRange (n : UInt32) : (word32Value n).InRange :=
  Nat.lt_trans n.toNat_lt (by decide)

theorem PinSetting.toValue_inRange (p : PinSetting) : p.toValue.InRange := by
  cases p with
  | number n => exact n.toNat_lt
  | label s => trivial

theorem InitialSetting.toValue_inRange (i : InitialSetting) : i.toValue.InRange := by
  cases i with
  | flag b => trivial
  | level n => exact word32Value_inRange n

theorem NodeSettings.toValue_inRange (s : NodeSettings) : s.toValue.InRange := by
  have hword := Value.membersInRange_optional word32Value_inRange
  have hpin := Value.membersInRange_optional PinSetting.toValue_inRange "pin" s.pin
  have hoperator := Value.membersInRange_optional text_inRange "operator" s.operator
  have hinitial :=
    Value.membersInRange_optional InitialSetting.toValue_inRange "initialState" s.initialState
  unfold NodeSettings.toValue
  repeat' apply Value.membersInRange_append
  all_goals first
    | assumption
    | apply hword

theorem NodeEntry.toValue_inRange (n : NodeEntry) : n.toValue.InRange :=
  ⟨trivial, trivial, n.settings.toValue_inRange, trivial⟩

theorem EdgeEntry.toValue_inRange (e : EdgeEntry) : e.toValue.InRange :=
  Value.membersInRange_append (Value.membersInRange_optional text_inRange "id" e.id)
    ⟨trivial, trivial, trivial, trivial, trivial⟩

theorem Document.toValue_inRange (d : Document) : d.toValue.InRange :=
  Value.membersInRange_append
    ⟨Value.itemsInRange_map NodeEntry.toValue_inRange d.nodes,
      Value.itemsInRange_map EdgeEntry.toValue_inRange d.edges, trivial⟩
    (Value.membersInRange_optional text_inRange "board" d.board)

/-! ## Saving and reading again -/

theorem loadProject_of_document {text : String} {d : Document} (h : Document.ofText text = .ok d)
    (chosen : Option String) : loadProject text chosen = d.toProject chosen := by
  unfold loadProject
  rw [h]
  rfl

/-- A document is read back from its text. -/
theorem Document.ofText_toText (d : Document) : Document.ofText d.toText = .ok d := by
  unfold Document.ofText Document.toText
  rw [treeOf_render d.toValue_inRange]
  simp only [d.read_toValue]
  rfl

/-- The text of the document that a text holds. -/
def resaved (text : String) : Except Fault String := (Document.ofText text).map Document.toText

theorem resaved_of_document {text : String} {d : Document} (h : Document.ofText text = .ok d) :
    resaved text = .ok d.toText := by
  unfold resaved
  rw [h]
  rfl

/-- Saving loses nothing: a document is read back from its text. So a text that holds one can
be saved, and the saved text holds the same document, is saved as it is and gives the same
project, where nothing is wrong with either text. -/
theorem resaved_exact :
    (∀ d : Document, Document.ofText d.toText = .ok d) ∧
      ∀ (text : String) (d : Document), Document.ofText text = .ok d →
        ∃ saved, resaved text = .ok saved ∧ Document.ofText saved = .ok d ∧
          resaved saved = .ok saved ∧
          ∀ chosen, loadProject saved chosen = loadProject text chosen ∧
            ∀ fault, loadProject text chosen ≠ .error (.json fault) := by
  refine ⟨Document.ofText_toText, fun text d hd => ?_⟩
  have hread := d.ofText_toText
  refine ⟨d.toText, resaved_of_document hd, hread, resaved_of_document hread, fun chosen => ?_⟩
  rw [loadProject_of_document hd, loadProject_of_document hread]
  exact ⟨rfl, d.toProject_pastText chosen⟩

/-- A text with space and an escape in it, with a start value and handles that are left out,
and with members that the editor keeps for itself. -/
def drawnByEditor : String :=
  "\x7b \"nodes\": [\x7b \"id\": \"\\u0061\", \"type\": \"toggleNode\", \"position\": \x7b\x7d \x7d],
    \"edges\": [\x7b \"source\": \"a\", \"target\": \"a\" \x7d] \x7d"

theorem drawnByEditor_survives :
    Document.ofText drawnByEditor =
        .ok ⟨[⟨"a", "toggleNode", {}⟩], [⟨none, "a", "out", "a", "in"⟩], none⟩ ∧
      ∃ saved, resaved drawnByEditor = .ok saved ∧
        Document.ofText saved =
          .ok ⟨[⟨"a", "toggleNode", {}⟩], [⟨none, "a", "out", "a", "in"⟩], none⟩ ∧
        resaved saved = .ok saved ∧
        ∀ chosen, loadProject saved chosen = loadProject drawnByEditor chosen ∧
          ∀ fault, loadProject drawnByEditor chosen ≠ .error (.json fault) := by
  have hd : Document.ofText drawnByEditor =
      .ok ⟨[⟨"a", "toggleNode", {}⟩], [⟨none, "a", "out", "a", "in"⟩], none⟩ := by cbv
  exact ⟨hd, resaved_exact.2 drawnByEditor _ hd⟩

end LogicWiring
