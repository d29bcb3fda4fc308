-- Nodes are placed first in, first out. The invariant `Placing` says what the
-- counts and the queue mean while nodes are placed; each turn keeps it, so it
-- holds at the end. Main statement: an order that comes out holds every node
-- once and has every edge go forward.
import LogicWiring.Order
import LogicWiring.Proofs.Positions
import Mathlib.Data.List.Perm.Subperm
import Mathlib.Tactic.Tauto

namespace LogicWiring

/-! ## One place in a list without repeats -/

theorem notMem_before {α : Type} {before after : List α} {a : α}
    (h : (before ++ a :: after).Nodup) : a ∉ before := fun hm =>
  (List.nodup_append.1 h).2.2 a hm a List.mem_cons_self rfl

theorem notMem_after {α : Type} {before after : List α} {a : α}
    (h : (before ++ a :: after).Nodup) : a ∉ after :=
  (List.nodup_cons.1 (List.nodup_append.1 h).2.1).1

theorem idxOf_of_split {order before after : List Nat} {i : Nat} (hnd : order.Nodup)
    (ho : order = before ++ i :: after) : order.idxOf i = before.length := by
  rw [ho, List.idxOf_append_of_notMem (notMem_before (ho ▸ hnd)), List.idxOf_cons_self,
    Nat.add_zero]

/-! ## Edges taken off -/

theorem getD_set_pred (pending : List Nat) (t j : Nat) :
    (pending.set t (pending[t]?.getD 0 - 1))[j]?.getD 0 =
      pending[j]?.getD 0 - if t = j then 1 else 0 := by
  by_cases h : t = j
  · subst h
    by_cases ht : t < pending.length
    · simp [ht]
    · have hnone : pending[t]? = none := List.getElem?_eq_none (Nat.le_of_not_lt ht)
      simp [List.set_eq_of_length_le (Nat.le_of_not_lt ht), hnone]
  · simp [List.getElem?_set_ne h, h]

theorem getD_release (pending targets : List Nat) (j : Nat) :
    (release pending targets).1[j]?.getD 0 = pending[j]?.getD 0 - targets.count j := by
  induction targets generalizing pending with
  | nil => simp [release]
  | cons t rest ih =>
    simp only [release, ih, getD_set_pred, List.count_cons, beq_iff_eq]
    omega

/-- A node is ready when the edges taken off are all that it had left. -/
theorem mem_release {pending targets : List Nat} {j : Nat} :
    j ∈ (release pending targets).2 ↔
      0 < pending[j]?.getD 0 ∧ pending[j]?.getD 0 ≤ targets.count j := by
  induction targets generalizing pending with
  | nil => simp [release]; omega
  | cons t rest ih =>
    have hrest := @ih (pending.set t (pending[t]?.getD 0 - 1))
    rw [getD_set_pred] at hrest
    simp only [release, List.count_cons, beq_iff_eq]
    by_cases h : t = j
    · subst h
      by_cases h1 : pending[t]?.getD 0 = 1
      · simp [h1]
      · simp only [h1, if_false, if_true] at hrest ⊢
        rw [hrest]
        omega
    · have hne : j ≠ t := fun he => h he.symm
      simp only [h, if_false, Nat.add_zero, Nat.sub_zero] at hrest ⊢
      split
      · simp [hne, hrest]
      · exact hrest

theorem release_nodup (pending targets : List Nat) : (release pending targets).2.Nodup := by
  induction targets generalizing pending with
  | nil => simp [release]
  | cons t rest ih =>
    simp only [release]
    split
    · -- the target has no edge left, so it cannot become ready once more
      refine List.nodup_cons.2 ⟨fun hm => ?_, ih _⟩
      have hpos := (mem_release.1 hm).1
      rw [getD_set_pred] at hpos
      simp only [if_true] at hpos
      omega
    · exact ih _

theorem countP_add_of_or {α : Type} {p q r : α → Bool} (l : List α)
    (h : ∀ a ∈ l, p a = (q a || r a)) (hd : ∀ a ∈ l, ¬ (q a ∧ r a)) :
    l.countP p = l.countP q + l.countP r := by
  induction l with
  | nil => rfl
  | cons a l ih =>
    have ha := h a (by simp)
    have hda := hd a (by simp)
    have ih := ih (fun b hb => h b (by simp [hb])) (fun b hb => hd b (by simp [hb]))
    simp only [List.countP_cons, ha, ih]
    cases hq : q a <;> cases hr : r a <;> simp_all <;> omega

namespace Graph

variable {g : Graph}

theorem count_successors (i j : Nat) :
    (g.successors i).count j = g.links.countP fun l => l.source = i ∧ l.target = j := by
  rw [successors_eq, List.count, List.countP_map, List.countP_filter]
  apply List.countP_congr
  simp [and_comm]

/-! ## The invariant -/

/-- The edges into a node from nodes that are not placed. -/
def waitingFor (g : Graph) (done : List Nat) (j : Nat) : Nat :=
  g.links.countP fun l => l.target = j ∧ l.source ∉ done

/-- `done` are the placed nodes, and `queue` those that are next. -/
structure Placing (g : Graph) (done queue pending : List Nat) : Prop where
  nodup : (done ++ queue).Nodup
  counts : ∀ j, pending[j]?.getD 0 = g.waitingFor done j
  mem_iff : ∀ j, j ∈ done ++ queue ↔ j < g.nodes.length ∧ g.waitingFor done j = 0
  forward : ∀ l ∈ g.links, l.target ∈ done →
    l.source ∈ done ∧ done.idxOf l.source < done.idxOf l.target

theorem waitingFor_nil (j : Nat) : g.waitingFor [] j = g.inDegree j := by
  simp [waitingFor, inDegree, linksInto, List.countP_eq_length_filter]

theorem lt_of_waitingFor_pos {done : List Nat} {j : Nat} (h : 0 < g.waitingFor done j) :
    j < g.nodes.length := by
  obtain ⟨l, hl, hw⟩ := List.countP_pos_iff.1 h
  simp only [decide_eq_true_eq] at hw
  exact hw.1 ▸ (link_ends_lt hl).2

/-- A node that waits for no edge has all its sources placed. -/
theorem source_mem_of_waitingFor {done : List Nat} {l : Link} (hl : l ∈ g.links)
    (h : g.waitingFor done l.target = 0) : l.source ∈ done := by
  have hno := List.countP_eq_zero.1 h l hl
  simpa using hno

theorem waitingFor_snoc {done : List Nat} {i : Nat} (hi : i ∉ done) (j : Nat) :
    g.waitingFor (done ++ [i]) j = g.waitingFor done j - (g.successors i).count j := by
  have hsplit : g.waitingFor done j =
      g.waitingFor (done ++ [i]) j + (g.successors i).count j := by
    rw [count_successors]
    apply countP_add_of_or
    · intro l _
      by_cases hs : l.source = i
      · simp [hs, hi]
      · simp [hs]
    · intro l _
      simp only [List.mem_append, List.mem_singleton, decide_eq_true_eq]
      tauto
  omega

theorem placing_start : g.Placing [] g.roots g.inDegrees where
  nodup := by
    rw [List.nil_append, roots]
    exact List.nodup_range.filter _
  counts := by
    intro j
    rw [waitingFor_nil]
    by_cases hj : j < g.nodes.length
    · simp [inDegrees, hj]
    · have hzero : ¬ 0 < g.waitingFor [] j := fun h => hj (lt_of_waitingFor_pos h)
      rw [waitingFor_nil] at hzero
      simp [inDegrees, hj]
      omega
  mem_iff := by
    intro j
    simp [roots, waitingFor_nil]
  forward := by simp

/-- One turn: the front of the queue is placed, and what it releases goes to the end. -/
theorem Placing.step {done rest pending : List Nat} {i : Nat}
    (h : g.Placing done (i :: rest) pending) :
    g.Placing (done ++ [i]) (rest ++ (release pending (g.successors i)).2)
      (release pending (g.successors i)).1 := by
  have hi : i ∉ done := notMem_before h.nodup
  have hready : ∀ j, j ∈ (release pending (g.successors i)).2 ↔
      0 < g.waitingFor done j ∧ g.waitingFor done j ≤ (g.successors i).count j := by
    intro j
    rw [mem_release, h.counts]
  have happ : done ++ [i] ++ (rest ++ (release pending (g.successors i)).2) =
      (done ++ i :: rest) ++ (release pending (g.successors i)).2 := by simp
  refine ⟨?_, ?_, ?_, ?_⟩
  · rw [happ]
    refine List.nodup_append.2 ⟨h.nodup, release_nodup _ _, ?_⟩
    rintro a ha b hb rfl
    have hzero := ((h.mem_iff a).1 ha).2
    have hpos := ((hready a).1 hb).1
    omega
  · intro j
    rw [getD_release, h.counts, waitingFor_snoc hi]
  · intro j
    rw [happ, List.mem_append, h.mem_iff, hready, waitingFor_snoc hi]
    constructor
    · rintro (⟨hj, hzero⟩ | ⟨hpos, hle⟩)
      · exact ⟨hj, by omega⟩
      · exact ⟨lt_of_waitingFor_pos hpos, by omega⟩
    · rintro ⟨hj, hzero⟩
      by_cases hw : g.waitingFor done j = 0
      · exact .inl ⟨hj, hw⟩
      · exact .inr ⟨by omega, by omega⟩
  · intro l hl ht
    rcases List.mem_append.1 ht with ht | ht
    · obtain ⟨hs, hlt⟩ := h.forward l hl ht
      refine ⟨List.mem_append.2 (.inl hs), ?_⟩
      rwa [List.idxOf_append_of_mem hs, List.idxOf_append_of_mem ht]
    · -- the node that is placed now waits for no edge
      have hti : l.target = i := by simpa using ht
      have hzero : g.waitingFor done l.target = 0 :=
        ((h.mem_iff l.target).1 (by simp [hti])).2
      have hs := source_mem_of_waitingFor hl hzero
      refine ⟨List.mem_append.2 (.inl hs), ?_⟩
      rw [List.idxOf_append_of_mem hs, hti, List.idxOf_append_of_notMem hi]
      have := List.idxOf_lt_length_of_mem hs
      omega

theorem Placing.run {done queue pending : List Nat} (h : g.Placing done queue pending) :
    g.Placing (done ++ (g.place pending queue).1) [] (g.place pending queue).2 := by
  fun_induction g.place pending queue generalizing done with
  | case1 => simpa using h
  | case2 pending i rest released placed left hp =>
    rename_i ih
    have hrun := ih h.step
    rw [hp] at hrun
    simpa using hrun

theorem Placing.lt_of_mem {placed left : List Nat} {i : Nat} (h : g.Placing placed [] left)
    (hi : i ∈ placed) : i < g.nodes.length :=
  ((h.mem_iff i).1 (by simpa using hi)).1

/-- As many placed nodes as there are nodes are all the nodes. -/
theorem Placing.mem_of_length_le {placed left : List Nat} {i : Nat}
    (h : g.Placing placed [] left) (hlen : g.nodes.length ≤ placed.length)
    (hi : i < g.nodes.length) : i ∈ placed := by
  have hnd : placed.Nodup := by simpa using h.nodup
  have hsub : placed ⊆ List.range g.nodes.length := fun _ hj => List.mem_range.2 (h.lt_of_mem hj)
  have hperm := (List.subperm_of_subset hnd hsub).perm_of_length_le (by simpa using hlen)
  exact hperm.symm.subset (List.mem_range.2 hi)

/-! ## Orders -/

/-- Every node once, and every edge forward. -/
structure IsOrder (g : Graph) (order : List Nat) : Prop where
  nodup : order.Nodup
  mem_iff : ∀ i, i ∈ order ↔ i < g.nodes.length
  forward : ∀ l ∈ g.links, order.idxOf l.source < order.idxOf l.target

theorem isOrder_of_evaluationOrder {order : List Nat} (h : g.evaluationOrder = .ok order) :
    g.IsOrder order := by
  have hrun := placing_start.run (g := g)
  unfold evaluationOrder at h
  rcases hp : g.place g.inDegrees g.roots with ⟨placed, left⟩
  rw [hp] at h hrun
  simp only at h
  split at h
  · simp at h
  · rename_i hlen
    cases h
    simp only [List.nil_append] at hrun
    have hmem : ∀ i, i ∈ order ↔ i < g.nodes.length := fun i =>
      ⟨hrun.lt_of_mem, hrun.mem_of_length_le (by omega)⟩
    refine ⟨by simpa using hrun.nodup, hmem, ?_⟩
    intro l hl
    exact (hrun.forward l hl ((hmem _).2 (link_ends_lt hl).2)).2

namespace IsOrder

variable {order : List Nat}

theorem perm_range (h : g.IsOrder order) : order.Perm (List.range g.nodes.length) := by
  rw [List.perm_ext_iff_of_nodup h.nodup List.nodup_range]
  intro i
  rw [h.mem_iff, List.mem_range]

/-- Such an order passes its check. -/
theorem orderCert_eq (h : g.IsOrder order) : g.orderCert order = ⟨true, true⟩ := by
  have honce : order.length = g.nodes.length ∧ order.Nodup ∧ ∀ i ∈ order, i < g.nodes.length :=
    ⟨by simpa using h.perm_range.length_eq, h.nodup, fun i hi => (h.mem_iff i).1 hi⟩
  unfold orderCert
  simp only [OrderCert.mk.injEq, decide_eq_true_eq]
  exact ⟨honce, honce, h.forward⟩

theorem idxOf_lt (h : g.IsOrder order) {i j : Nat} (hf : g.Feeds i j) :
    order.idxOf i < order.idxOf j := by
  obtain ⟨l, hl, rfl, rfl⟩ := hf
  exact h.forward l hl

theorem idxOf_split (h : g.IsOrder order) {before after : List Nat} {i : Nat}
    (ho : order = before ++ i :: after) : order.idxOf i = before.length :=
  idxOf_of_split h.nodup ho

/-- What feeds a node stands before it. -/
theorem mem_before (h : g.IsOrder order) {before after : List Nat} {i j : Nat}
    (ho : order = before ++ j :: after) (hf : g.Feeds i j) : i ∈ before := by
  have hlt := h.idxOf_lt hf
  rw [h.idxOf_split ho] at hlt
  by_contra hi
  rw [ho, List.idxOf_append_of_notMem hi] at hlt
  omega

/-- What a node feeds stands after it. -/
theorem mem_after (h : g.IsOrder order) {before after : List Nat} {i j : Nat}
    (ho : order = before ++ i :: after) (hf : g.Feeds i j) : j ∈ after := by
  have hlt := h.idxOf_lt hf
  have hj : j ∈ order := (h.mem_iff j).2 (target_lt_of_feeds hf)
  rw [h.idxOf_split ho] at hlt
  rw [ho, List.mem_append, List.mem_cons] at hj
  rcases hj with hb | rfl | ha
  · rw [ho, List.idxOf_append_of_mem hb] at hlt
    have := List.idxOf_lt_length_of_mem hb
    omega
  · rw [h.idxOf_split ho] at hlt
    omega
  · exact ha

end IsOrder

end Graph

end LogicWiring
