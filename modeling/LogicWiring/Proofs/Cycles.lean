-- Cycles, and what they hold back. A node that is never placed has a node
-- before it that is never placed either, so it comes after a cycle; a node
-- that is placed has all that comes before it placed earlier. Main statement:
-- `evaluationOrder_eq_cycle_iff`.
import LogicWiring.Proofs.Failures
import LogicWiring.Proofs.Placing
import Mathlib.Data.Fintype.Card
import Mathlib.Data.Set.Finite.Basic
import Mathlib.Logic.Relation
import Mathlib.Order.WellFounded

namespace LogicWiring

open Relation

/-! ## After a cycle -/

section

variable {α β : Type} {r : α → α → Prop} {v : α}

/-- The point lies on a cycle of the relation or can be reached from one. -/
def AfterCycle (r : α → α → Prop) (v : α) : Prop := ∃ u, TransGen r u u ∧ ReflTransGen r u v

/-- What comes after a cycle does so through one of its predecessors. -/
theorem afterCycle_iff : AfterCycle r v ↔ ∃ u, r u v ∧ AfterCycle r u := by
  constructor
  · rintro ⟨c, hc, hcv⟩
    have hreach : TransGen r c v := by
      rcases reflTransGen_iff_eq_or_transGen.1 hcv with rfl | h
      · exact hc
      · exact h
    obtain ⟨u, hcu, huv⟩ := TransGen.tail'_iff.1 hreach
    exact ⟨u, huv, c, hc, hcu⟩
  · rintro ⟨u, huv, c, hc, hcu⟩
    exact ⟨c, hc, hcu.tail huv⟩

theorem AfterCycle.lift {s : β → β → Prop} (f : α → β) (hf : ∀ a b, r a b → s (f a) (f b))
    (h : AfterCycle r v) : AfterCycle s (f v) := by
  obtain ⟨u, hu, huv⟩ := h
  exact ⟨f u, hu.lift f hf, huv.lift f hf⟩

/-- In a finite set where each point has a predecessor, all points come after cycles. -/
theorem afterCycle_of_predecessors {S : Set α} (hfin : S.Finite)
    (hback : ∀ b ∈ S, ∃ a ∈ S, r a b) (hv : v ∈ S) : AfterCycle r v := by
  by_contra hno
  -- the points of the set that lead to `v`; none of them is on a cycle
  let T : Set α := {a ∈ S | ReflTransGen r a v}
  have : Finite T := (hfin.subset (Set.sep_subset S _)).to_subtype
  let reaches : T → T → Prop := fun a b => TransGen r a b
  have : IsTrans T reaches := ⟨fun _ _ _ hab hbc => hab.trans hbc⟩
  have : Std.Irrefl reaches := ⟨fun a ha => hno ⟨a, ha, a.2.2⟩⟩
  have hwf : WellFounded reaches := Finite.wellFounded_of_trans_of_irrefl reaches
  obtain ⟨first, -, hmin⟩ := hwf.has_min Set.univ ⟨⟨v, hv, .refl⟩, trivial⟩
  obtain ⟨a, ha, hab⟩ := hback first first.2.1
  exact hmin ⟨a, ha, first.2.2.head hab⟩ trivial (.single hab)

end

namespace Graph

variable {g : Graph}

/-! ## What is never placed -/

theorem waitingFor_pos_iff {done : List Nat} {j : Nat} :
    0 < g.waitingFor done j ↔ ∃ i, g.Feeds i j ∧ i ∉ done := by
  unfold waitingFor Feeds
  rw [List.countP_pos_iff]
  constructor
  · rintro ⟨l, hl, hw⟩
    obtain ⟨ht, hs⟩ := of_decide_eq_true hw
    exact ⟨l.source, ⟨l, hl, rfl, ht⟩, hs⟩
  · rintro ⟨i, ⟨l, hl, rfl, ht⟩, hs⟩
    exact ⟨l, hl, decide_eq_true ⟨ht, hs⟩⟩

namespace Placing

variable {placed left : List Nat} {i j : Nat}

theorem mem_placed_iff (h : g.Placing placed [] left) :
    i ∈ placed ↔ i < g.nodes.length ∧ g.waitingFor placed i = 0 := by
  simpa using h.mem_iff i

/-- All that comes before a placed node is placed earlier. -/
theorem idxOf_lt (h : g.Placing placed [] left) (hij : TransGen g.Feeds i j) (hj : j ∈ placed) :
    i ∈ placed ∧ placed.idxOf i < placed.idxOf j := by
  induction hij using TransGen.head_induction_on with
  | single hf =>
    obtain ⟨l, hl, rfl, rfl⟩ := hf
    exact h.forward l hl hj
  | head hf _ ih =>
    obtain ⟨hmem, hlt⟩ := ih
    obtain ⟨l, hl, rfl, rfl⟩ := hf
    obtain ⟨hsource, hbefore⟩ := h.forward l hl hmem
    exact ⟨hsource, hbefore.trans hlt⟩

theorem not_mem_placed_iff (h : g.Placing placed [] left) (hi : i < g.nodes.length) :
    i ∉ placed ↔ AfterCycle g.Feeds i := by
  constructor
  · intro hout
    let S : Set Nat := {j | j < g.nodes.length ∧ j ∉ placed}
    have hfin : S.Finite := (Set.finite_lt_nat g.nodes.length).subset fun j hj => hj.1
    apply afterCycle_of_predecessors hfin _ ⟨hi, hout⟩
    rintro j ⟨hj, hjout⟩
    have hpos : 0 < g.waitingFor placed j := by
      by_contra hzero
      exact hjout (h.mem_placed_iff.2 ⟨hj, by omega⟩)
    obtain ⟨k, hk, hkout⟩ := waitingFor_pos_iff.1 hpos
    exact ⟨k, ⟨source_lt_of_feeds hk, hkout⟩, hk⟩
  · rintro ⟨c, hc, hci⟩ hmem
    have hcmem : c ∈ placed := by
      rcases reflTransGen_iff_eq_or_transGen.1 hci with rfl | hci
      · exact hmem
      · exact (h.idxOf_lt hci hmem).1
    have := (h.idxOf_lt hc hcmem).2
    omega

/-- The nodes that still wait at the end are those that come after a cycle. -/
theorem pending_pos_iff (h : g.Placing placed [] left) (hi : i < g.nodes.length) :
    0 < left[i]?.getD 0 ↔ AfterCycle g.Feeds i := by
  rw [h.counts, ← h.not_mem_placed_iff hi, h.mem_placed_iff]
  omega

theorem length_lt_iff (h : g.Placing placed [] left) :
    placed.length < g.nodes.length ↔ ∃ i < g.nodes.length, AfterCycle g.Feeds i := by
  constructor
  · intro hlt
    by_contra hno
    have hall : List.range g.nodes.length ⊆ placed := by
      intro i hi
      have hi := List.mem_range.1 hi
      by_contra hout
      exact hno ⟨i, hi, (h.not_mem_placed_iff hi).1 hout⟩
    have hle := List.nodup_range.length_le_of_subset hall
    rw [List.length_range] at hle
    omega
  · rintro ⟨i, hi, hcycle⟩
    have hout := (h.not_mem_placed_iff hi).2 hcycle
    by_contra hge
    exact hout (h.mem_of_length_le (by omega) hi)

end Placing

/-! ## Wires -/

/-- A wire leads from the node with the first id to the one with the second. -/
def Wired (g : Graph) (u v : String) : Prop := ∃ e ∈ g.edges, e.source = u ∧ e.target = v

/-- One or more wires in a row lead from the first node to the second. -/
def Reaches (g : Graph) : String → String → Prop := TransGen g.Wired

/-- Some node reaches itself. -/
def Cyclic (g : Graph) : Prop := ∃ u, g.Reaches u u

/-- The node lies on a cycle or can be reached from one. -/
def HeldBack (g : Graph) : String → Prop := AfterCycle g.Wired

theorem mem_ids_of_wired {u v : String} (h : g.Wired u v) : u ∈ g.ids ∧ v ∈ g.ids := by
  obtain ⟨e, he, rfl, rfl⟩ := h
  exact g.ends_known e he

theorem idAt_index {id : String} (h : id ∈ g.ids) : g.idAt (g.index id) = id := by
  obtain ⟨n, hn, hid⟩ := getElem?_index h
  simp [idAt, hn, hid]

theorem index_idAt {i : Nat} (h : i < g.nodes.length) : g.index (g.idAt i) = i := by
  have hn : g.nodes[i]? = some g.nodes[i] := List.getElem?_eq_getElem h
  have hid : g.idAt i = g.nodes[i].id := by simp [idAt, hn]
  rw [hid, index_id hn]

theorem idAt_mem_ids {i : Nat} (h : i < g.nodes.length) : g.idAt i ∈ g.ids := by
  have hn : g.nodes[i]? = some g.nodes[i] := List.getElem?_eq_getElem h
  have hid : g.idAt i = g.nodes[i].id := by simp [idAt, hn]
  rw [hid]
  exact mem_ids_of_getElem? hn

theorem feeds_index {u v : String} (h : g.Wired u v) : g.Feeds (g.index u) (g.index v) := by
  obtain ⟨e, he, rfl, rfl⟩ := h
  exact ⟨e.link g.nodes, mem_links.2 ⟨e, he, rfl⟩, rfl, rfl⟩

theorem wired_idAt {i j : Nat} (h : g.Feeds i j) : g.Wired (g.idAt i) (g.idAt j) := by
  obtain ⟨l, hl, rfl, rfl⟩ := h
  obtain ⟨e, he, rfl⟩ := mem_links.1 hl
  have hends := g.ends_known e he
  exact ⟨e, he, (idAt_index hends.1).symm, (idAt_index hends.2).symm⟩

theorem transGen_feeds_iff {i j : Nat} (hi : i < g.nodes.length) (hj : j < g.nodes.length) :
    TransGen g.Feeds i j ↔ g.Reaches (g.idAt i) (g.idAt j) := by
  constructor
  · intro h
    exact h.lift g.idAt fun _ _ => wired_idAt
  · intro h
    have hfeeds : TransGen g.Feeds (g.index (g.idAt i)) (g.index (g.idAt j)) :=
      h.lift g.index fun _ _ => feeds_index
    rwa [index_idAt hi, index_idAt hj] at hfeeds

theorem afterCycle_feeds_iff {i : Nat} (hi : i < g.nodes.length) :
    AfterCycle g.Feeds i ↔ g.HeldBack (g.idAt i) := by
  constructor
  · exact AfterCycle.lift g.idAt fun _ _ => wired_idAt
  · intro h
    have hfeeds := AfterCycle.lift g.index (fun _ _ => feeds_index) h
    rwa [index_idAt hi] at hfeeds

theorem heldBack_of_reaches_self {u : String} (h : g.Reaches u u) : g.HeldBack u :=
  ⟨u, h, .refl⟩

theorem mem_ids_of_reaches {u v : String} (h : g.Reaches u v) : u ∈ g.ids ∧ v ∈ g.ids := by
  obtain ⟨a, hua, -⟩ := TransGen.head'_iff.1 h
  obtain ⟨b, -, hbv⟩ := TransGen.tail'_iff.1 h
  exact ⟨(mem_ids_of_wired hua).1, (mem_ids_of_wired hbv).2⟩

theorem cyclic_iff : g.Cyclic ↔ ∃ i < g.nodes.length, AfterCycle g.Feeds i := by
  constructor
  · rintro ⟨u, hu⟩
    have hid := (mem_ids_of_reaches hu).1
    refine ⟨g.index u, index_lt hid, (afterCycle_feeds_iff (index_lt hid)).2 ?_⟩
    rw [idAt_index hid]
    exact heldBack_of_reaches_self hu
  · rintro ⟨i, hi, h⟩
    obtain ⟨u, hu, -⟩ := (afterCycle_feeds_iff hi).1 h
    exact ⟨u, hu⟩

theorem ids_eq_map_idAt (g : Graph) : g.ids = (List.range g.nodes.length).map g.idAt := by
  unfold ids idAt
  apply List.ext_getElem
  · simp
  · intro i hi _
    simp only [List.length_map] at hi
    simp [hi]

/-! ## The order -/

open Classical in
/-- There is no order exactly if there is a cycle, and then the error names all nodes that
are held back, in node order. -/
theorem evaluationOrder_eq_cycle_iff {unplaced : List String} :
    g.evaluationOrder = .error (.cycle unplaced) ↔
      g.Cyclic ∧ unplaced = g.ids.filter fun id => g.HeldBack id := by
  have hrun := placing_start.run (g := g)
  unfold evaluationOrder
  rcases hp : g.place g.inDegrees g.roots with ⟨placed, left⟩
  rw [hp, List.nil_append] at hrun
  have hwaiting : ((List.range g.nodes.length).filter fun i => 0 < left[i]?.getD 0).map g.idAt =
      g.ids.filter fun id => g.HeldBack id := by
    rw [ids_eq_map_idAt, List.filter_map]
    congr 1
    apply List.filter_congr
    intro i hi
    have hi := List.mem_range.1 hi
    rw [Function.comp_apply, decide_eq_decide, hrun.pending_pos_iff hi, afterCycle_feeds_iff hi]
  dsimp only
  rw [hwaiting, cyclic_iff, ← hrun.length_lt_iff]
  split
  · rename_i hlt
    simp [hlt, eq_comm]
  · rename_i hge
    simp [hge]

theorem exists_order (h : ¬ g.Cyclic) : ∃ order, g.evaluationOrder = .ok order := by
  cases ho : g.evaluationOrder with
  | ok order => exact ⟨order, rfl⟩
  | error e =>
    have hstage := g.evaluationOrder_failsIn e ho
    cases e with
    | cycle unplaced => exact absurd (evaluationOrder_eq_cycle_iff.1 ho).1 h
    | operandRange _ _ _ _ => cases hstage
    | slotOverflow _ _ => cases hstage

theorem exists_order_iff : (∃ order, g.evaluationOrder = .ok order) ↔ ¬ g.Cyclic := by
  refine ⟨?_, exists_order⟩
  rintro ⟨order, ho⟩ h
  rw [evaluationOrder_eq_cycle_iff.2 ⟨h, rfl⟩] at ho
  cases ho

end Graph

end LogicWiring
