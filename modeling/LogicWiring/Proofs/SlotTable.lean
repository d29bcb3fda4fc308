-- What the allocation of slots gives: every producer gets a slot of its own
-- below the count, and no sink gets one.
import LogicWiring.Slots
import LogicWiring.Proofs.Placing

namespace LogicWiring

namespace Graph

variable {g : Graph}

def isProducerAt (g : Graph) (i : Nat) : Bool := !g.isSinkAt i

/-! ## Handing out -/

theorem handOut_other {order : List Nat} {next : UInt8} {slots : List (Option UInt8)} {i : Nat}
    (h : i ∉ order ∨ g.isSinkAt i = true) : (g.handOut order next slots)[i]? = slots[i]? := by
  induction order generalizing next slots with
  | nil => rfl
  | cons j rest ih =>
    have hrest : i ∉ rest ∨ g.isSinkAt i = true := h.imp_left fun hn hm => hn (by simp [hm])
    rw [handOut]
    split
    · exact ih hrest
    · rename_i hj
      rw [ih hrest, List.getElem?_set_ne]
      rintro rfl
      rcases h with hn | hs
      · exact hn (by simp)
      · exact hj hs

theorem length_handOut (order : List Nat) (next : UInt8) (slots : List (Option UInt8)) :
    (g.handOut order next slots).length = slots.length := by
  induction order generalizing next slots with
  | nil => rfl
  | cons i rest ih =>
    rw [handOut]
    split
    · exact ih next slots
    · rw [ih, List.length_set]

/-- The last visit of a producer decides its slot: the number of producers before it. -/
theorem handOut_last {before after : List Nat} {next : UInt8} {slots : List (Option UInt8)}
    {i : Nat} (hi : g.isSinkAt i = false) (hlast : i ∉ after) (hlt : i < slots.length) :
    (g.handOut (before ++ i :: after) next slots)[i]? =
      some (some (next + UInt8.ofNat (before.countP g.isProducerAt))) := by
  induction before generalizing next slots with
  | nil =>
    simp only [List.nil_append, handOut, hi, Bool.false_eq_true, if_false, List.countP_nil]
    rw [handOut_other (.inl hlast), List.getElem?_set_self hlt]
    simp
  | cons j before ih =>
    simp only [List.cons_append, handOut]
    split
    · rename_i hj
      rw [ih hlt, List.countP_cons_of_neg (by simp [isProducerAt, hj])]
    · rename_i hj
      rw [ih (by simpa using hlt), List.countP_cons_of_pos (by simp [isProducerAt, hj]),
        UInt8.ofNat_add, UInt8.add_assoc, UInt8.add_comm 1]
      rfl

/-! ## Counting producers -/

theorem countP_eq_countP_range {α : Type} (l : List α) (p : α → Bool) :
    l.countP p = (List.range l.length).countP fun i => (l[i]?).any p := by
  induction l with
  | nil => rfl
  | cons a l ih =>
    rw [List.countP_cons, List.length_cons, List.range_succ_eq_map, List.countP_cons,
      List.countP_map, ih]
    rfl

theorem countP_isProducerAt {order : List Nat} (hperm : order.Perm (List.range g.nodes.length)) :
    order.countP g.isProducerAt = g.producerCount := by
  rw [hperm.countP_eq, producerCount, countP_eq_countP_range g.nodes]
  apply List.countP_congr
  intro i hi
  have hlt : i < g.nodes.length := List.mem_range.1 hi
  simp [isProducerAt, isSinkAt, hlt]

theorem countP_take_lt {α : Type} {l : List α} {p : α → Bool} {i j : Nat} (hi : i < l.length)
    (hp : p l[i] = true) (hij : i < j) : (l.take i).countP p < (l.take j).countP p := by
  have hsucc : (l.take (i + 1)).countP p = (l.take i).countP p + 1 := by
    rw [List.take_succ_eq_append_getElem hi, List.countP_append, List.countP_singleton, if_pos hp]
  have hle : (l.take (i + 1)).countP p ≤ (l.take j).countP p :=
    List.Sublist.countP_le (List.take_sublist_take_left (by omega))
  omega

/-- The number of producers before a node. -/
def slotNumber (g : Graph) (order : List Nat) (i : Nat) : Nat :=
  (order.take (order.idxOf i)).countP g.isProducerAt

theorem slotNumber_lt_of_idxOf_lt {order : List Nat} {i j : Nat} (hm : i ∈ order)
    (hi : g.isSinkAt i = false) (hij : order.idxOf i < order.idxOf j) :
    g.slotNumber order i < g.slotNumber order j := by
  apply countP_take_lt (List.idxOf_lt_length_of_mem hm) _ hij
  simp [isProducerAt, hi]

theorem slotNumber_inj {order : List Nat} {i j : Nat} (hi : i ∈ order) (hj : j ∈ order)
    (hsi : g.isSinkAt i = false) (hsj : g.isSinkAt j = false)
    (h : g.slotNumber order i = g.slotNumber order j) : i = j := by
  rcases Nat.lt_trichotomy (order.idxOf i) (order.idxOf j) with hlt | heq | hlt
  · have := slotNumber_lt_of_idxOf_lt hi hsi hlt
    omega
  · exact (List.idxOf_inj hi).1 heq
  · have := slotNumber_lt_of_idxOf_lt hj hsj hlt
    omega

theorem slotNumber_lt_producerCount {order : List Nat} {i : Nat}
    (hperm : order.Perm (List.range g.nodes.length)) (hm : i ∈ order)
    (hi : g.isSinkAt i = false) : g.slotNumber order i < g.producerCount := by
  have hlt := List.idxOf_lt_length_of_mem hm
  have h := countP_take_lt (p := g.isProducerAt) hlt (by simp [isProducerAt, hi]) hlt
  rwa [List.take_length, countP_isProducerAt hperm] at h

end Graph

/-! ## The table -/

/-- Each producer of the graph has a slot of its own below the count. -/
structure SlotMap.Serves (m : SlotMap) (g : Graph) : Prop where
  isSome_iff : ∀ i, (m.get i).isSome ↔ i < g.nodes.length ∧ g.isSinkAt i = false
  inj : ∀ i j s, m.get i = some s → m.get j = some s → i = j
  lt_count : ∀ i s, m.get i = some s → s.toNat < m.count
  count_le : m.count ≤ maxSlots

namespace SlotMap.Serves

variable {m : SlotMap} {g : Graph}

/-- No slot has the value that means that nothing is wired. -/
theorem ne_unconnected (h : m.Serves g) {i : Nat} {s : UInt8} (hs : m.get i = some s) :
    s ≠ unconnected := by
  rintro rfl
  have hlt := h.lt_count i _ hs
  have hle := h.count_le
  unfold maxSlots at hle
  omega

theorem get_eq_none (h : m.Serves g) {i : Nat} (hi : g.isSinkAt i = true) : m.get i = none := by
  rw [← Option.not_isSome_iff_eq_none, h.isSome_iff]
  simp [hi]

theorem isSinkAt_of_get_eq_none (h : m.Serves g) {i : Nat} (hi : i < g.nodes.length)
    (hget : m.get i = none) : g.isSinkAt i = true := by
  by_contra hno
  have hsome := (h.isSome_iff i).2 ⟨hi, by simpa using hno⟩
  simp [hget] at hsome

theorem exists_slot (h : m.Serves g) {i : Nat} (hlt : i < g.nodes.length)
    (hi : g.isSinkAt i = false) : ∃ s, m.get i = some s :=
  Option.isSome_iff_exists.1 ((h.isSome_iff i).2 ⟨hlt, hi⟩)

end SlotMap.Serves

namespace Graph

variable {g : Graph} {order : List Nat} {m : SlotMap}

/-- Too many producers are the one reason to fail, whatever the order. -/
theorem allocate_eq_error_iff {e : CompileError} : g.allocate order = .error e ↔
    maxSlots < g.producerCount ∧ e = .slotOverflow g.producerCount maxSlots := by
  unfold allocate
  split
  · rename_i h
    simp only [Except.error.injEq, gt_iff_lt.1 h, true_and]
    exact eq_comm
  · rename_i h
    simp [h]

theorem allocate_eq_ok (h : g.allocate order = .ok m) :
    m = { slots := g.handOut order 0 (List.replicate g.nodes.length none)
          count := g.producerCount } ∧ g.producerCount ≤ maxSlots := by
  unfold allocate at h
  split at h
  · simp at h
  · cases h
    exact ⟨rfl, by omega⟩

theorem count_allocate (ha : g.allocate order = .ok m) :
    m.count = g.producerCount ∧ g.producerCount ≤ maxSlots := by
  obtain ⟨rfl, hle⟩ := allocate_eq_ok ha
  exact ⟨rfl, hle⟩

/-- The last visit of a producer decides its slot, which wraps after 255. -/
theorem get_of_last {before after : List Nat} {i : Nat} (hs : order = before ++ i :: after)
    (hlast : i ∉ after) (ha : g.allocate order = .ok m) (hlt : i < g.nodes.length)
    (hi : g.isSinkAt i = false) :
    m.get i = some (UInt8.ofNat (before.countP g.isProducerAt)) := by
  obtain ⟨rfl, -⟩ := allocate_eq_ok ha
  rw [SlotMap.get, hs, handOut_last hi hlast (by simpa using hlt)]
  simp

theorem get_allocate {i : Nat} (hnd : order.Nodup) (hm : i ∈ order)
    (ha : g.allocate order = .ok m) (hlt : i < g.nodes.length) (hi : g.isSinkAt i = false) :
    m.get i = some (UInt8.ofNat (g.slotNumber order i)) := by
  obtain ⟨before, after, hs⟩ := List.append_of_mem hm
  rw [get_of_last hs (notMem_after (hs ▸ hnd)) ha hlt hi, slotNumber, idxOf_of_split hnd hs, hs, List.take_left]

theorem get_allocate_eq_none {i : Nat} (ha : g.allocate order = .ok m)
    (h : i ∉ order ∨ g.isSinkAt i = true) : m.get i = none := by
  obtain ⟨rfl, -⟩ := allocate_eq_ok ha
  rw [SlotMap.get, handOut_other h, List.getElem?_replicate]
  split <;> rfl

theorem serves_of_perm (hperm : order.Perm (List.range g.nodes.length))
    (ha : g.allocate order = .ok m) : m.Serves g := by
  have hcount := count_allocate ha
  have hnd : order.Nodup := hperm.nodup_iff.2 List.nodup_range
  have hmem : ∀ i, i ∈ order ↔ i < g.nodes.length := fun i => by
    rw [hperm.mem_iff, List.mem_range]
  have hsome : ∀ i, (m.get i).isSome ↔ i < g.nodes.length ∧ g.isSinkAt i = false := by
    intro i
    constructor
    · intro h
      by_contra hno
      rw [get_allocate_eq_none ha] at h
      · simp at h
      · rw [hmem]
        by_cases hlt : i < g.nodes.length
        · exact .inr (by simpa [hlt] using hno)
        · exact .inl hlt
    · rintro ⟨hlt, hi⟩
      simp [get_allocate hnd ((hmem i).2 hlt) ha hlt hi]
  -- the number of a slot is below the count, so that it fits one byte
  have hslot : ∀ i s, m.get i = some s → i ∈ order ∧ g.isSinkAt i = false ∧
      s.toNat = g.slotNumber order i := by
    intro i s hs
    obtain ⟨hlt, hi⟩ := (hsome i).1 (by simp [hs])
    have hm := (hmem i).2 hlt
    have hnum := slotNumber_lt_producerCount hperm hm hi
    have hle : g.producerCount ≤ 255 := hcount.2
    rw [get_allocate hnd hm ha hlt hi] at hs
    cases hs
    exact ⟨hm, hi, UInt8.toNat_ofNat_of_lt' (by simp only [UInt8.size]; omega)⟩
  refine ⟨hsome, ?_, ?_, hcount.1 ▸ hcount.2⟩
  · intro i j s hi hj
    obtain ⟨hmi, hsi, hni⟩ := hslot i s hi
    obtain ⟨hmj, hsj, hnj⟩ := hslot j s hj
    exact slotNumber_inj hmi hmj hsi hsj (hni.symm.trans hnj)
  · intro i s hs
    obtain ⟨hm, hi, hn⟩ := hslot i s hs
    rw [hn, hcount.1]
    exact slotNumber_lt_producerCount hperm hm hi

theorem serves_of_allocate (ho : g.IsOrder order) (ha : g.allocate order = .ok m) : m.Serves g :=
  serves_of_perm ho.perm_range ha

end Graph

end LogicWiring
