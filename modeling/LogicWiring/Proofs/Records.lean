-- A record read from a tree. An object is read as a record if its members
-- make the record (`read_object_eq_ok_iff`), in whatever order they stand
-- (`Holds.perm`). No record is read from a tree that is not legible
-- (`Slotted.legible_of_read`).
import LogicWiring.Document.Reader
import LogicWiring.Proofs.Failures
import LogicWiring.Proofs.Grammar
import Mathlib.Data.List.Pairwise
import Mathlib.Tactic.FinCases

namespace LogicWiring

namespace Json

namespace Record

variable {α : Type} (r : Record α)

/-- The members that are fields. -/
def known (members : List (Reading String × Tree)) : List (String × Tree) :=
  members.filterMap fun m =>
    match m.1.value with
    | .ok name => if name ∈ r.fields then some (name, m.2) else none
    | .error _ => none

/-- A member can be kept or passed over: it has a name, and if this is no field, then nothing is
wrong with the form of its value. -/
def Passes (m : Reading String × Tree) : Prop :=
  ∃ name, m.1.value = .ok name ∧ (name ∉ r.fields → m.2.formFault = none)

/-- Sets fields one after the other. -/
def setAll (a : α) (members : List (String × Tree)) : Except Fault α :=
  members.foldlM (fun a m => r.set m.1 m.2 a) a

theorem setAll_cons (a : α) (name : String) (t : Tree) (members : List (String × Tree)) :
    r.setAll a ((name, t) :: members) = r.set name t a >>= (r.setAll · members) := rfl

variable {r}

theorem known_cons_field {key : Reading String} {name : String} (hname : key.value = .ok name)
    (hfield : name ∈ r.fields) (t : Tree) (members : List (Reading String × Tree)) :
    r.known ((key, t) :: members) = (name, t) :: r.known members := by
  simp [known, hname, hfield]

theorem known_cons_extra {key : Reading String} {name : String} (hname : key.value = .ok name)
    (hextra : name ∉ r.fields) (t : Tree) (members : List (Reading String × Tree)) :
    r.known ((key, t) :: members) = r.known members := by
  simp [known, hname, hextra]

theorem known_append (members members' : List (Reading String × Tree)) :
    r.known (members ++ members') = r.known members ++ r.known members' :=
  List.filterMap_append

theorem passes_of_field {key : Reading String} {name : String} (hname : key.value = .ok name)
    (hfield : name ∈ r.fields) (t : Tree) : r.Passes (key, t) :=
  ⟨name, hname, fun h => absurd hfield h⟩

theorem passes_extra_iff {key : Reading String} {name : String} (hname : key.value = .ok name)
    (hextra : name ∉ r.fields) (t : Tree) : r.Passes (key, t) ↔ t.formFault = none := by
  constructor
  · rintro ⟨name', hname', hform⟩
    rw [hname] at hname'
    cases hname'
    exact hform hextra
  · exact fun h => ⟨name, hname, fun _ => h⟩

theorem unseen_cons_iff {names seen : List String} {name : String} :
    (∀ n ∈ names, n ∉ name :: seen) ↔ name ∉ names ∧ ∀ n ∈ names, n ∉ seen := by
  simp only [List.mem_cons, not_or]
  constructor
  · exact fun h => ⟨fun hn => (h name hn).1 rfl, fun n hn => (h n hn).2⟩
  · rintro ⟨hname, hunseen⟩ n hn
    exact ⟨fun he => hname (he ▸ hn), hunseen n hn⟩

/-- Members are read if all of them pass, no field comes again, and all can be set. -/
theorem readMembers_eq_ok_iff (members : List (Reading String × Tree)) (seen seen' : List String)
    (a b : α) :
    r.readMembers seen a members = .ok (seen', b) ↔
      (∀ m ∈ members, r.Passes m) ∧
      ((r.known members).map Prod.fst).Nodup ∧
      (∀ name ∈ (r.known members).map Prod.fst, name ∉ seen) ∧
      seen' = ((r.known members).map Prod.fst).reverse ++ seen ∧
      r.setAll a (r.known members) = .ok b := by
  induction members generalizing seen a with
  | nil => simp [readMembers, known, setAll, pure, Except.pure, eq_comm]
  | cons m members ih =>
    obtain ⟨key, t⟩ := m
    rw [readMembers, List.forall_mem_cons]
    cases hname : key.value with
    | error f =>
      refine iff_of_false (by rintro ⟨⟩) ?_
      rintro ⟨⟨⟨name, hok, -⟩, -⟩, -⟩
      rw [hname] at hok
      cases hok
    | ok name =>
      dsimp only
      by_cases hfield : name ∈ r.fields
      · rw [if_neg (not_not_intro hfield), known_cons_field hname hfield, List.map_cons,
          List.nodup_cons, List.forall_mem_cons, setAll_cons, bind_eq_ok]
        by_cases hseen : name ∈ seen
        · rw [if_pos hseen]
          refine iff_of_false (by rintro ⟨⟩) ?_
          rintro ⟨-, -, ⟨hnew, -⟩, -⟩
          exact hnew hseen
        · rw [if_neg hseen]
          cases hset : r.set name t a with
          | error f => simp
          | ok next =>
            rw [ih, unseen_cons_iff]
            constructor
            · rintro ⟨hpass, hnodup, ⟨hnew, hunseen⟩, rfl, hrest⟩
              exact ⟨⟨passes_of_field hname hfield t, hpass⟩, ⟨hnew, hnodup⟩, ⟨hseen, hunseen⟩,
                by simp, next, rfl, hrest⟩
            · rintro ⟨⟨-, hpass⟩, ⟨hnew, hnodup⟩, ⟨-, hunseen⟩, rfl, next', ⟨⟩, hrest⟩
              exact ⟨hpass, hnodup, ⟨hnew, hunseen⟩, by simp, hrest⟩
      · rw [if_pos hfield, known_cons_extra hname hfield, passes_extra_iff hname hfield]
        cases hform : t.formFault with
        | some f => simp
        | none => simp [ih]

/-- The members of an object make this record. -/
structure Holds (r : Record α) (members : List (Reading String × Tree)) (a : α) : Prop where
  passes : ∀ m ∈ members, r.Passes m
  once : ((r.known members).map Prod.fst).Nodup
  complete : ∀ name ∈ r.required, name ∈ (r.known members).map Prod.fst
  set : r.setAll r.blank (r.known members) = .ok a

theorem read_object_eq_ok_iff (members : List (Reading String × Tree)) (broken : Option Fault)
    (a : α) : r.read (.object members broken) = .ok a ↔ r.Holds members a ∧ broken = none := by
  rw [read, bind_eq_ok]
  constructor
  · rintro ⟨⟨seen, b⟩, hmembers, hfinish⟩
    obtain ⟨hpass, hnodup, -, rfl, hset⟩ := (readMembers_eq_ok_iff _ _ _ _ _).1 hmembers
    cases broken with
    | some f => cases hfinish
    | none =>
      simp only [finish] at hfinish
      split at hfinish
      · rename_i hrequired
        cases hfinish
        exact ⟨⟨hpass, hnodup, by simpa using hrequired, hset⟩, rfl⟩
      · cases hfinish
  · rintro ⟨⟨hpass, hnodup, hrequired, hset⟩, rfl⟩
    refine ⟨_, (readMembers_eq_ok_iff members [] _ r.blank a).2
      ⟨hpass, hnodup, fun _ _ => List.not_mem_nil, rfl, hset⟩, ?_⟩
    exact if_pos fun name hname => by simpa using hrequired name hname

end Record

/-! ## Fields -/

/-- A field: what its value is read as, and where it is put. -/
structure Slot (α : Type) where
  name : String
  {Value : Type}
  read : Tree → Except Fault Value
  put : Value → α → α

/-- Two fields can be put in either order. -/
def Slot.Apart {α : Type} (s s' : Slot α) : Prop :=
  ∀ u v a, s.put u (s'.put v a) = s'.put v (s.put u a)

instance {α : Type} : Std.Symm (Slot.Apart (α := α)) where
  symm _ _ h u v a := (h v u a).symm

namespace Record

variable {α : Type} {r : Record α} {slots : List (Slot α)}

/-- These are the fields of the record. They can be put in any order, and no field is read that is
not legible. -/
structure Slotted (r : Record α) (slots : List (Slot α)) : Prop where
  fields : r.fields = slots.map Slot.name
  set : ∀ s ∈ slots, ∀ t a, r.set s.name t a = (s.read t).map (s.put · a)
  apart : slots.Pairwise Slot.Apart
  legible : ∀ s ∈ slots, ∀ t u, s.read t = .ok u → t.Legible

namespace Slotted

theorem exists_slot (hr : r.Slotted slots) {name : String} (h : name ∈ r.fields) :
    ∃ s ∈ slots, s.name = name := by
  rw [hr.fields] at h
  exact List.mem_map.1 h

theorem legible_of_set (hr : r.Slotted slots) {name : String} (h : name ∈ r.fields) {t : Tree}
    {a b : α} (hset : r.set name t a = .ok b) : t.Legible := by
  obtain ⟨s, hs, rfl⟩ := hr.exists_slot h
  rw [hr.set s hs, map_eq_ok] at hset
  obtain ⟨u, hu, -⟩ := hset
  exact hr.legible s hs t u hu

/-- Two fields can be set in either order. -/
theorem set_comm (hr : r.Slotted slots) {name name' : String} (hname : name ∈ r.fields)
    (hname' : name' ∈ r.fields) (hne : name ≠ name') {t t' : Tree} {a b : α}
    (h : (r.set name t a >>= r.set name' t') = .ok b) :
    (r.set name' t' a >>= r.set name t) = .ok b := by
  obtain ⟨s, hs, rfl⟩ := hr.exists_slot hname
  obtain ⟨s', hs', rfl⟩ := hr.exists_slot hname'
  have happart : s.Apart s' := hr.apart.forall hs hs' fun he => hne (he ▸ rfl)
  rw [bind_eq_ok] at h ⊢
  obtain ⟨next, hnext, hlast⟩ := h
  rw [hr.set s hs, map_eq_ok] at hnext
  rw [hr.set s' hs', map_eq_ok] at hlast
  obtain ⟨u, hu, rfl⟩ := hnext
  obtain ⟨v, hv, rfl⟩ := hlast
  refine ⟨s'.put v a, ?_, ?_⟩
  · rw [hr.set s' hs', hv]
    rfl
  · rw [hr.set s hs, hu, ← happart u v a]
    rfl

end Slotted

/-! ## The order of the members -/

theorem mem_fields_of_mem_known {members : List (Reading String × Tree)} {m : String × Tree}
    (h : m ∈ r.known members) : m.1 ∈ r.fields := by
  simp only [known, List.mem_filterMap] at h
  obtain ⟨member, -, hm⟩ := h
  split at hm
  · split at hm
    · cases hm
      assumption
    · cases hm
  · cases hm

theorem setAll_perm (hr : r.Slotted slots) {members members' : List (String × Tree)}
    (h : members.Perm members') (hfields : ∀ m ∈ members, m.1 ∈ r.fields)
    (hnodup : (members.map Prod.fst).Nodup) {a b : α} (hset : r.setAll a members = .ok b) :
    r.setAll a members' = .ok b := by
  induction h generalizing a with
  | nil => exact hset
  | cons m h ih =>
    rw [setAll_cons, bind_eq_ok] at hset ⊢
    obtain ⟨next, hnext, hrest⟩ := hset
    exact ⟨next, hnext, ih (List.forall_mem_cons.1 hfields).2 (List.nodup_cons.1 hnodup).2 hrest⟩
  | swap m m' members =>
    -- Of two members with one name the later would win, but names come once.
    have hne : m'.1 ≠ m.1 := by
      rintro he
      exact (List.nodup_cons.1 hnodup).1 (by simp [he])
    have hswap : ∀ m m' : String × Tree, r.setAll a (m :: m' :: members) =
        (r.set m.1 m.2 a >>= r.set m'.1 m'.2) >>= (r.setAll · members) := by
      intro m m'
      rw [setAll_cons, bind_assoc]
      rfl
    rw [hswap, bind_eq_ok] at hset ⊢
    obtain ⟨next, hnext, hrest⟩ := hset
    exact ⟨next, hr.set_comm (hfields m' (by simp)) (hfields m (by simp)) hne hnext, hrest⟩
  | trans h _ ih ih' =>
    exact ih' (fun m hm => hfields m (h.mem_iff.2 hm)) ((h.map _).nodup_iff.1 hnodup)
      (ih hfields hnodup hset)

theorem Holds.perm {members members' : List (Reading String × Tree)} {a : α}
    (hholds : r.Holds members a) (hr : r.Slotted slots) (h : members.Perm members') :
    r.Holds members' a := by
  have hknown : (r.known members).Perm (r.known members') := h.filterMap _
  have hnames := hknown.map Prod.fst
  exact
    { passes := fun m hm => hholds.passes m (h.mem_iff.2 hm)
      once := hnames.nodup_iff.1 hholds.once
      complete := fun name hname => hnames.mem_iff.1 (hholds.complete name hname)
      set := setAll_perm hr hknown (fun _ => mem_fields_of_mem_known) hholds.once hholds.set }

/-! ## Members that are changed -/

/-- A member that is no field can be left out, where nothing is wrong with its form. -/
theorem holds_insert_iff {key : Reading String} {name : String} (hname : key.value = .ok name)
    (hextra : name ∉ r.fields) {t : Tree} (hform : t.formFault = none)
    (before after : List (Reading String × Tree)) (a : α) :
    r.Holds (before ++ (key, t) :: after) a ↔ r.Holds (before ++ after) a := by
  have hknown : r.known (before ++ (key, t) :: after) = r.known (before ++ after) := by
    rw [known_append, known_append, known_cons_extra hname hextra]
  have hpasses : (∀ m ∈ before ++ (key, t) :: after, r.Passes m) ↔
      ∀ m ∈ before ++ after, r.Passes m := by
    rw [List.forall_mem_append, List.forall_mem_append, List.forall_mem_cons,
      passes_extra_iff hname hextra, and_iff_right hform]
  constructor
  · rintro ⟨hall, honce, hcomplete, hset⟩
    rw [hknown] at honce hcomplete hset
    exact ⟨hpasses.1 hall, honce, hcomplete, hset⟩
  · rintro ⟨hall, honce, hcomplete, hset⟩
    rw [← hknown] at honce hcomplete hset
    exact ⟨hpasses.2 hall, honce, hcomplete, hset⟩

theorem setAll_append (a : α) (members members' : List (String × Tree)) :
    r.setAll a (members ++ members') = r.setAll a members >>= (r.setAll · members') :=
  List.foldlM_append

/-- A field can have any value that is read as the same. -/
theorem Holds.within {key : Reading String} {name : String} (hname : key.value = .ok name)
    (hfield : name ∈ r.fields) {t t' : Tree}
    (h : ∀ a b, r.set name t a = .ok b → r.set name t' a = .ok b)
    {before after : List (Reading String × Tree)} {a : α}
    (hholds : r.Holds (before ++ (key, t) :: after) a) :
    r.Holds (before ++ (key, t') :: after) a := by
  obtain ⟨hall, honce, hcomplete, hset⟩ := hholds
  rw [known_append, known_cons_field hname hfield] at honce hcomplete hset
  have hknown : r.known (before ++ (key, t') :: after) =
      r.known before ++ (name, t') :: r.known after := by
    rw [known_append, known_cons_field hname hfield]
  have hnames : (r.known (before ++ (key, t') :: after)).map Prod.fst =
      (r.known before ++ (name, t) :: r.known after).map Prod.fst := by
    rw [hknown]
    simp
  refine ⟨?_, hnames ▸ honce, hnames ▸ hcomplete, ?_⟩
  · rw [List.forall_mem_append, List.forall_mem_cons] at hall ⊢
    exact ⟨hall.1, passes_of_field hname hfield t', hall.2.2⟩
  · rw [setAll_append, bind_eq_ok] at hset
    obtain ⟨b, hbefore, hset⟩ := hset
    rw [setAll_cons, bind_eq_ok] at hset
    obtain ⟨c, hc, hafter⟩ := hset
    rw [hknown, setAll_append, bind_eq_ok]
    refine ⟨b, hbefore, ?_⟩
    rw [setAll_cons, bind_eq_ok]
    exact ⟨c, h b c hc, hafter⟩

/-! ## Legible trees -/

theorem exists_set_of_setAll {members : List (String × Tree)} {a b : α}
    (h : r.setAll a members = .ok b) :
    ∀ m ∈ members, ∃ before after, r.set m.1 m.2 before = .ok after := by
  induction members generalizing a with
  | nil => exact fun m hm => absurd hm List.not_mem_nil
  | cons m members ih =>
    rw [setAll_cons, bind_eq_ok] at h
    obtain ⟨next, hnext, hrest⟩ := h
    exact List.forall_mem_cons.2 ⟨⟨a, next, hnext⟩, ih hrest⟩

theorem Slotted.legible_of_holds (hr : r.Slotted slots) {members : List (Reading String × Tree)}
    {a : α} (h : r.Holds members a) : (Tree.object members none).Legible := by
  refine (Tree.legible_object members none).2 ⟨fun m hm => ?_, rfl⟩
  obtain ⟨name, hname, hform⟩ := h.passes m hm
  refine ⟨.inl ⟨name, hname⟩, ?_⟩
  by_cases hfield : name ∈ r.fields
  · have hknown : (name, m.2) ∈ r.known members := by
      refine List.mem_filterMap.2 ⟨m, hm, ?_⟩
      simp [hname, hfield]
    obtain ⟨before, after, hset⟩ := exists_set_of_setAll h.set _ hknown
    exact hr.legible_of_set hfield hset
  · exact Tree.legible_of_formFault (hform hfield)

theorem Slotted.legible_of_readItems (hr : r.Slotted slots) {fields : List String}
    {items : List Tree} {seen : List String} {a : α} {result : List String × α}
    (hfields : ∀ name ∈ fields, name ∈ r.fields)
    (h : r.readItems seen a fields items = .ok result) : ∀ t ∈ items, t.Legible := by
  fun_induction r.readItems seen a fields items with
  | case1 => exact fun t ht => absurd ht List.not_mem_nil
  | case2 | case3 => cases h
  | case4 seen a name fields t rest next hset ih =>
    rw [List.forall_mem_cons] at hfields ⊢
    exact ⟨hr.legible_of_set hfields.1 hset, ih hfields.2 h⟩

theorem Slotted.legible_of_read (hr : r.Slotted slots) (t : Tree) (a : α)
    (h : r.read t = .ok a) : t.Legible := by
  cases t with
  | object members broken =>
    obtain ⟨hholds, rfl⟩ := (read_object_eq_ok_iff members broken a).1 h
    exact hr.legible_of_holds hholds
  | array items broken =>
    rw [read, bind_eq_ok] at h
    obtain ⟨⟨seen, b⟩, hitems, hfinish⟩ := h
    refine (Tree.legible_array items broken).2 ⟨hr.legible_of_readItems (fun _ h => h) hitems, ?_⟩
    cases broken with
    | none => rfl
    | some f => cases hfinish
  | _ => cases h

end Record

namespace Tree

theorem legible_of_readText (t : Tree) (s : String) (h : t.readText = .ok s) : t.Legible := by
  cases t with
  | text r => exact List.forall_mem_singleton.2 (.inl ⟨s, h⟩)
  | _ => cases h

theorem legible_of_readWord32 (t : Tree) (n : UInt32) (h : t.readWord32 = .ok n) : t.Legible := by
  cases t with
  | number r =>
    refine List.forall_mem_singleton.2 (.inl ?_)
    simp only [readWord32] at h
    split at h
    · exact ⟨_, ‹_›⟩
    · exact ⟨_, ‹_›⟩
    · cases h
  | _ => cases h

theorem legible_of_readKept {α : Type} (judge : Tree → Option α) (t : Tree) (a : α)
    (h : readKept judge t = .ok a) : t.Legible := by
  unfold readKept at h
  split at h
  · cases h
  · exact legible_of_valueFault ‹_›

theorem legible_of_readOptional {α : Type} {read : Tree → Except Fault α}
    (hread : ∀ t a, read t = .ok a → t.Legible) (t : Tree) (o : Option α)
    (h : t.readOptional read = .ok o) : t.Legible := by
  unfold readOptional at h
  split at h
  · exact List.forall_mem_singleton.2 trivial
  · obtain ⟨a, ha, -⟩ := map_eq_ok.1 h
    exact hread t a ha

theorem legible_of_mapM {α : Type} {read : Tree → Except Fault α}
    (hread : ∀ t a, read t = .ok a → t.Legible) {items : List Tree} {as : List α}
    (h : items.mapM read = .ok as) : ∀ t ∈ items, t.Legible := by
  induction items generalizing as with
  | nil => exact fun t ht => absurd ht List.not_mem_nil
  | cons t items ih =>
    rw [List.mapM_cons, bind_eq_ok] at h
    obtain ⟨a, ha, hrest⟩ := h
    obtain ⟨as', has, -⟩ := bind_eq_ok.1 hrest
    exact List.forall_mem_cons.2 ⟨hread t a ha, ih has⟩

theorem legible_of_readList {α : Type} {read : Tree → Except Fault α}
    (hread : ∀ t a, read t = .ok a → t.Legible) (t : Tree) (as : List α)
    (h : t.readList read = .ok as) : t.Legible := by
  cases t with
  | array items broken =>
    simp only [readList] at h
    split at h
    · cases h
    · cases h
    · rename_i as' hitems
      exact (legible_array items none).2 ⟨legible_of_mapM hread hitems, rfl⟩
  | _ => cases h

end Tree

end Json

/-! ## The records of a document -/

open Json

def NodeSettings.slots : List (Slot NodeSettings) :=
  [⟨"pin", Tree.readOptional (readKept PinSetting.ofTree?), fun pin s => { s with pin }⟩,
    ⟨"inputs", Tree.readOptional Tree.readWord32, fun inputs s => { s with inputs }⟩,
    ⟨"min", Tree.readOptional Tree.readWord32, fun min s => { s with min }⟩,
    ⟨"max", Tree.readOptional Tree.readWord32, fun max s => { s with max }⟩,
    ⟨"operator", Tree.readOptional Tree.readText, fun operator s => { s with operator }⟩,
    ⟨"pulseMs", Tree.readOptional Tree.readWord32, fun pulseMs s => { s with pulseMs }⟩,
    ⟨"intervalMs", Tree.readOptional Tree.readWord32, fun intervalMs s => { s with intervalMs }⟩,
    ⟨"initialState", Tree.readOptional (readKept InitialSetting.ofTree?),
      fun initialState s => { s with initialState }⟩,
    ⟨"outputWidth", Tree.readOptional Tree.readWord32,
      fun outputWidth s => { s with outputWidth }⟩]

theorem NodeSettings.form_slotted : form.Slotted slots where
  fields := rfl
  set s hs t a := by fin_cases hs <;> rfl
  apart := by simp [slots, Slot.Apart]
  legible s hs := by
    have hword := Tree.legible_of_readOptional Tree.legible_of_readWord32
    have htext := Tree.legible_of_readOptional Tree.legible_of_readText
    have hpin := Tree.legible_of_readOptional (Tree.legible_of_readKept PinSetting.ofTree?)
    have hinitial := Tree.legible_of_readOptional (Tree.legible_of_readKept InitialSetting.ofTree?)
    fin_cases hs
    exacts [hpin, hword, hword, hword, htext, hword, hword, hinitial, hword]

def NodeEntry.slots : List (Slot NodeEntry) :=
  [⟨"id", Tree.readText, fun id n => { n with id }⟩,
    ⟨"type", Tree.readText, fun type n => { n with type }⟩,
    ⟨"data", NodeSettings.form.read, fun settings n => { n with settings }⟩]

theorem NodeEntry.form_slotted : form.Slotted slots where
  fields := rfl
  set s hs t a := by fin_cases hs <;> rfl
  apart := by simp [slots, Slot.Apart]
  legible s hs := by
    fin_cases hs
    exacts [Tree.legible_of_readText, Tree.legible_of_readText,
      NodeSettings.form_slotted.legible_of_read]

def EdgeEntry.slots : List (Slot EdgeEntry) :=
  [⟨"id", Tree.readOptional Tree.readText, fun id e => { e with id }⟩,
    ⟨"source", Tree.readText, fun source e => { e with source }⟩,
    ⟨"sourceHandle", Tree.readText, fun sourceHandle e => { e with sourceHandle }⟩,
    ⟨"target", Tree.readText, fun target e => { e with target }⟩,
    ⟨"targetHandle", Tree.readText, fun targetHandle e => { e with targetHandle }⟩]

theorem EdgeEntry.form_slotted : form.Slotted slots where
  fields := rfl
  set s hs t a := by fin_cases hs <;> rfl
  apart := by simp [slots, Slot.Apart]
  legible s hs := by
    have htext := Tree.legible_of_readText
    fin_cases hs
    exacts [Tree.legible_of_readOptional htext, htext, htext, htext, htext]

def Document.slots : List (Slot Document) :=
  [⟨"nodes", Tree.readList NodeEntry.form.read, fun nodes d => { d with nodes }⟩,
    ⟨"edges", Tree.readList EdgeEntry.form.read, fun edges d => { d with edges }⟩,
    ⟨"board", Tree.readOptional Tree.readText, fun board d => { d with board }⟩]

theorem Document.form_slotted : form.Slotted slots where
  fields := rfl
  set s hs t a := by fin_cases hs <;> rfl
  apart := by simp [slots, Slot.Apart]
  legible s hs := by
    fin_cases hs
    exacts [Tree.legible_of_readList NodeEntry.form_slotted.legible_of_read,
      Tree.legible_of_readList EdgeEntry.form_slotted.legible_of_read,
      Tree.legible_of_readOptional Tree.legible_of_readText]

end LogicWiring
