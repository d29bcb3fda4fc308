-- Which number a slot has. Along an order that holds every node once the
-- producers get 0, 1, 2 and so on, so the slots have no gap, and sorted by
-- slot the nodes stand in the order again. Main statement: `allocate_exact`,
-- for any list of nodes.
import LogicWiring.Proofs.Emission
import Mathlib

namespace LogicWiring

namespace Graph

variable {g : Graph} {order : List Nat} {m : SlotMap}

/-! ## Nodes without a slot -/

theorem get_eq_none_iff {i : Nat} (ha : g.allocate order = .ok m) (hlt : i < g.nodes.length) :
    m.get i = none ↔ g.isSinkAt i = true ∨ i ∉ order := by
  refine ⟨fun hnone => ?_, fun h => get_allocate_eq_none ha h.symm⟩
  by_contra! h
  obtain ⟨hsink, hm⟩ := h
  -- the last place of the node, from the first one of the reversed list
  obtain ⟨after, before, hs, hlast⟩ := List.eq_append_cons_of_mem (List.mem_reverse.2 hm)
  have hs : order = before.reverse ++ i :: after.reverse := by
    simpa using congrArg List.reverse hs
  rw [get_of_last hs (by simpa using hlast) ha hlt (by simpa using hsink)] at hnone
  simp at hnone

/-! ## Numbers along the order -/

theorem slot_of_last {before after : List Nat} {i : Nat} (hs : order = before ++ i :: after)
    (hlast : i ∉ after) (ha : g.allocate order = .ok m) (hlt : i < g.nodes.length)
    (hi : g.isSinkAt i = false) : m.slot i = UInt8.ofNat (before.countP g.isProducerAt) := by
  rw [SlotMap.slot, get_of_last hs hlast ha hlt hi, Option.getD_some]

/-- From some place of the order on, the slots go on from the number of producers before it. -/
theorem slots_from {before rest : List Nat} (hs : order = before ++ rest) (hnd : order.Nodup)
    (hlt : ∀ i ∈ order, i < g.nodes.length) (ha : g.allocate order = .ok m) :
    (rest.filter g.isProducerAt).map m.slot =
      (List.range' (before.countP g.isProducerAt) (rest.countP g.isProducerAt)).map UInt8.ofNat := by
  induction rest generalizing before with
  | nil => rfl
  | cons i rest ih =>
    have hrest := @ih (before ++ [i]) (by simp [hs])
    rw [List.countP_append, List.countP_singleton] at hrest
    by_cases hi : g.isProducerAt i = true
    · have hsink : g.isSinkAt i = false := by simpa [isProducerAt] using hi
      have hslot := slot_of_last hs (notMem_after (hs ▸ hnd)) ha (hlt i (by simp [hs])) hsink
      rw [if_pos hi] at hrest
      rw [List.filter_cons_of_pos hi, List.map_cons, hrest, hslot, List.countP_cons_of_pos hi,
        List.range'_succ, List.map_cons]
    · rw [if_neg hi, Nat.add_zero] at hrest
      rw [List.filter_cons_of_neg hi, hrest, List.countP_cons_of_neg hi]

/-- Along an order of all nodes the slots of the producers are 0, 1, 2 and so on. -/
theorem slots_along (hperm : order.Perm (List.range g.nodes.length))
    (ha : g.allocate order = .ok m) :
    (order.filter g.isProducerAt).map (fun i => (m.slot i).toNat) = List.range m.count := by
  have hcount := (count_allocate ha).1
  have hle : g.producerCount ≤ 255 := (count_allocate ha).2
  have hslots := slots_from (List.nil_append order).symm (hperm.nodup_iff.2 List.nodup_range)
    (fun i hi => List.mem_range.1 (hperm.mem_iff.1 hi)) ha
  rw [countP_isProducerAt hperm, List.countP_nil, ← List.range_eq_range'] at hslots
  have hbytes : (order.filter g.isProducerAt).map (fun i => (m.slot i).toNat) =
      ((order.filter g.isProducerAt).map m.slot).map UInt8.toNat := by rw [List.map_map]; rfl
  rw [hbytes, hslots, List.map_map, hcount]
  conv_rhs => rw [← List.map_id (List.range g.producerCount)]
  apply List.map_congr_left
  intro k hk
  have hk := List.mem_range.1 hk
  exact UInt8.toNat_ofNat_of_lt' (by simp only [UInt8.size]; omega)

theorem mem_filter_producers (hperm : order.Perm (List.range g.nodes.length)) {i : Nat} :
    i ∈ order.filter g.isProducerAt ↔ i < g.nodes.length ∧ g.isSinkAt i = false := by
  rw [List.mem_filter, hperm.mem_iff, List.mem_range, isProducerAt, Bool.not_eq_true']

/-- No slot is used twice, and none is left out. -/
theorem slots_bijOn (hperm : order.Perm (List.range g.nodes.length))
    (ha : g.allocate order = .ok m) :
    Set.BijOn (fun i => (m.slot i).toNat) {i | i < g.nodes.length ∧ g.isSinkAt i = false}
      (Set.Iio m.count) := by
  have halong := slots_along hperm ha
  refine ⟨fun i hi => ?_, fun i hi j hj h => ?_, fun k hk => ?_⟩
  · have hslot := List.mem_map_of_mem (f := fun i => (m.slot i).toNat)
      ((mem_filter_producers hperm).2 hi)
    rw [halong] at hslot
    exact List.mem_range.1 hslot
  · exact List.inj_on_of_nodup_map (halong ▸ List.nodup_range) ((mem_filter_producers hperm).2 hi)
      ((mem_filter_producers hperm).2 hj) h
  · have hslot := List.mem_range.2 hk
    rw [← halong] at hslot
    obtain ⟨i, hi, rfl⟩ := List.mem_map.1 hslot
    exact ⟨i, (mem_filter_producers hperm).1 hi, rfl⟩

/-! ## Assignments -/

theorem zipIdx_slots (ha : g.allocate order = .ok m) :
    m.slots.zipIdx = (List.range g.nodes.length).map fun i => (m.get i, i) := by
  have hlength : m.slots.length = g.nodes.length := by
    obtain ⟨rfl, -⟩ := allocate_eq_ok ha
    rw [length_handOut, List.length_replicate]
  refine List.ext_getElem (by simp [hlength]) fun i hi _ => ?_
  simp only [List.length_zipIdx] at hi
  simp [SlotMap.get, hi]

/-- What `assignments` sorts is a rearrangement of the producers along the order. -/
theorem pairs_perm (hperm : order.Perm (List.range g.nodes.length))
    (ha : g.allocate order = .ok m) :
    (m.slots.zipIdx.filterMap fun (slot, i) => slot.map fun s => (g.idAt i, s)).Perm
      ((order.filter g.isProducerAt).map fun i => (g.idAt i, m.slot i)) := by
  have hs := serves_of_perm hperm ha
  have hpair : ∀ i ∈ order, ((m.get i).map fun s => (g.idAt i, s)) =
      if g.isProducerAt i then some (g.idAt i, m.slot i) else none := by
    intro i hi
    by_cases hsink : g.isSinkAt i = true
    · simp [isProducerAt, hsink, hs.get_eq_none hsink]
    · rw [Bool.not_eq_true] at hsink
      obtain ⟨s, hget⟩ := hs.exists_slot (List.mem_range.1 (hperm.mem_iff.1 hi)) hsink
      simp [isProducerAt, hsink, SlotMap.slot, hget]
  have halong : ((order.filter g.isProducerAt).map fun i => (g.idAt i, m.slot i)) =
      order.filterMap fun i => (m.get i).map fun s => (g.idAt i, s) := by
    rw [List.filterMap_congr hpair, ← List.filterMap_eq_map, List.filterMap_filter]
    rfl
  rw [zipIdx_slots ha, List.filterMap_map, halong]
  exact hperm.symm.filterMap _

/-- Sorted by slot, the producers stand in the order again. -/
theorem assignments_eq (hperm : order.Perm (List.range g.nodes.length))
    (ha : g.allocate order = .ok m) :
    m.assignments g = (order.filter g.isProducerAt).map fun i => (g.idAt i, m.slot i) := by
  have hnumbers : ((order.filter g.isProducerAt).map fun i => (g.idAt i, m.slot i)).map
      (fun a => a.2.toNat) = List.range m.count := by
    rw [List.map_map]
    exact slots_along hperm ha
  have hsorted : (m.assignments g).Pairwise fun a b => decide (a.2 ≤ b.2) = true := by
    apply List.pairwise_mergeSort
    · intro a b c hab hbc
      rw [decide_eq_true_eq] at hab hbc ⊢
      exact UInt8.le_trans hab hbc
    · intro a b
      simpa using UInt8.le_total a.2 b.2
  have halong : ((order.filter g.isProducerAt).map fun i => (g.idAt i, m.slot i)).Pairwise
      fun a b => decide (a.2 ≤ b.2) = true := by
    have hlt := List.pairwise_map.1 (hnumbers ▸ List.pairwise_lt_range)
    exact hlt.imp fun h => decide_eq_true (UInt8.le_iff_toNat_le.2 (Nat.le_of_lt h))
  have hsame : (m.assignments g).Perm
      ((order.filter g.isProducerAt).map fun i => (g.idAt i, m.slot i)) :=
    (List.mergeSort_perm _ _).trans (pairs_perm hperm ha)
  refine List.Perm.eq_of_pairwise ?_ hsorted halong hsame
  -- no two of them have one slot, so that sorting leaves no choice
  intro a b ha hb hab hba
  rw [decide_eq_true_eq, UInt8.le_iff_toNat_le] at hab hba
  exact List.inj_on_of_nodup_map (hnumbers ▸ List.nodup_range) (hsame.mem_iff.1 ha) hb
    (Nat.le_antisymm hab hba)

theorem assignments_eq_zipIdx (hperm : order.Perm (List.range g.nodes.length))
    (ha : g.allocate order = .ok m) :
    (m.assignments g).map (Prod.map id UInt8.toNat) =
      (g.idsOf (order.filter g.isProducerAt)).zipIdx := by
  have halong := slots_along hperm ha
  have hlength : (order.filter g.isProducerAt).length = m.count := by
    rw [← List.length_map, halong, List.length_range]
  rw [assignments_eq hperm ha, List.map_map, List.zipIdx_eq_zip_range', ← List.range_eq_range',
    idsOf, List.length_map, hlength, ← halong, List.zip_map']
  rfl

end Graph

/-- Slots for any list of nodes. Only the number of producers decides whether there are enough
of them. A producer of the list has the number of producers before its last place, which wraps
after 255. If the list is all nodes, each once, then the numbers are those below the count, each
for one producer, and the assignments are the producers in that order, numbered from 0. -/
theorem allocate_exact (g : Graph) (order : List Nat) :
    let producers := g.nodes.countP fun n => !n.kind.isSink
    (∀ e, g.allocate order = .error e ↔ 255 < producers ∧ e = .slotOverflow producers 255) ∧
    ∀ m, g.allocate order = .ok m →
      m.count = producers ∧
      (∀ i < g.nodes.length, m.get i = none ↔ g.isSinkAt i = true ∨ i ∉ order) ∧
      (∀ before i after, order = before ++ i :: after → i ∉ after → i < g.nodes.length →
        g.isSinkAt i = false →
        ∃ s, m.get i = some s ∧ s.toNat = (before.countP fun j => !g.isSinkAt j) % 256) ∧
      (order.Perm (List.range g.nodes.length) →
        Set.BijOn (fun i => (m.slot i).toNat) {i | i < g.nodes.length ∧ g.isSinkAt i = false}
          (Set.Iio m.count) ∧
        (∀ i, m.get i ≠ some unconnected) ∧
        (m.assignments g).map (Prod.map id UInt8.toNat) =
          (g.idsOf (order.filter fun j => !g.isSinkAt j)).zipIdx) := by
  refine ⟨fun e => Graph.allocate_eq_error_iff, fun m ha => ?_⟩
  refine ⟨?_, fun i hlt => Graph.get_eq_none_iff ha hlt, ?_, fun hperm => ⟨?_, ?_, ?_⟩⟩
  · exact (Graph.count_allocate ha).1
  · intro before i after hs hlast hlt hi
    exact ⟨_, Graph.get_of_last hs hlast ha hlt hi, UInt8.toNat_ofNat'⟩
  · exact Graph.slots_bijOn hperm ha
  · exact fun i hi => (Graph.serves_of_perm hperm ha).ne_unconnected hi rfl
  · exact Graph.assignments_eq_zipIdx hperm ha

/-- An output, an inverter and an input, from the output back. -/
def backward : Graph where
  nodes := [{ id := "o", kind := .output (some 8) }, { id := "n", kind := .not },
    { id := "a", kind := .input (some 2) }]
  edges := [{ source := "a", target := "n" }, { source := "n", target := "o" }]
  ids_nodup := by decide
  ends_known := by decide

/-- Slots along the signals, along a list that comes back to the inverter twice and leaves the
output out, and along one that is at the inverter 256 times before the input. -/
theorem backward_slots :
    (∃ m, backward.allocate [2, 1, 0] = .ok m ∧ m.assignments backward = [("a", 0), ("n", 1)] ∧
      Set.BijOn (fun i => (m.slot i).toNat)
        {i | i < 3 ∧ backward.isSinkAt i = false} (Set.Iio 2)) ∧
    (∃ m, backward.allocate [1, 1, 2, 1] = .ok m ∧ m.get 0 = none ∧ m.get 1 = some 3 ∧
      m.get 2 = some 2) ∧
    ∃ m, backward.allocate (List.replicate 256 1 ++ [2]) = .ok m ∧ m.get 2 = some 0 := by
  obtain ⟨m, ha⟩ : ∃ m, backward.allocate [2, 1, 0] = .ok m := ⟨_, rfl⟩
  obtain ⟨m', ha'⟩ : ∃ m, backward.allocate [1, 1, 2, 1] = .ok m := ⟨_, rfl⟩
  obtain ⟨m'', ha''⟩ : ∃ m, backward.allocate (List.replicate 256 1 ++ [2]) = .ok m := ⟨_, rfl⟩
  obtain ⟨hcount, -, -, hdense⟩ := (allocate_exact backward [2, 1, 0]).2 m ha
  obtain ⟨-, hnone, hnumber, -⟩ := (allocate_exact backward [1, 1, 2, 1]).2 m' ha'
  obtain ⟨-, -, hwrapped, -⟩ :=
    (allocate_exact backward (List.replicate 256 1 ++ [2])).2 m'' ha''
  obtain ⟨hbij, -, hassigned⟩ := hdense (by decide)
  have hinj : Function.Injective (Prod.map (id : String → String) UInt8.toNat) :=
    Function.injective_id.prodMap fun _ _ => UInt8.toNat_inj.1
  refine ⟨⟨m, ha, ?_, ?_⟩, ⟨m', ha', ?_, ?_, ?_⟩, m'', ha'', ?_⟩
  · exact List.map_injective_iff.2 hinj hassigned
  · rwa [hcount] at hbij
  · exact (hnone 0 (by decide)).2 (by decide)
  · obtain ⟨s, hs, hn⟩ := hnumber [1, 1, 2] 1 [] rfl (by decide) (by decide) (by decide)
    rw [hs, Option.some.injEq]
    exact UInt8.toNat_inj.1 hn
  · obtain ⟨s, hs, hn⟩ := hnumber [1, 1] 2 [1] rfl (by decide) (by decide) (by decide)
    rw [hs, Option.some.injEq]
    exact UInt8.toNat_inj.1 hn
  · obtain ⟨s, hs, hn⟩ := hwrapped (List.replicate 256 1) 2 [] rfl (by decide) (by decide)
      (by decide)
    have hinverter : backward.isSinkAt 1 = false := by decide
    rw [List.countP_replicate, hinverter] at hn
    rw [hs, Option.some.injEq]
    exact UInt8.toNat_inj.1 hn

end LogicWiring
