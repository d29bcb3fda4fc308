-- The check of an order, made with a table of ranks. The ranks are written
-- one after the other until a place of the order does not fit; then the ends
-- of the edges are compared by rank. Main statement: `orderCert_exact`, the
-- table is never read past its end, and what passes are the orders.
import LogicWiring.Proofs.Placing
import Mathlib

namespace LogicWiring

/-! ## The table of ranks -/

/-- Stands in the table for a node without a rank. -/
def unranked : Nat := 2 ^ 64 - 1

/-- Writes the ranks of the nodes of an order into a table, from the rank `next` on, and gives
whether it came through. It stops at what is no node and at a node that has a rank. Looking past
the end of the table gives nothing. -/
def rankFrom (nodes : Nat) : List Nat → Nat → List Nat → Option (Bool × List Nat)
  | ranks, _, [] => some (true, ranks)
  | ranks, next, i :: rest =>
    if nodes ≤ i then some (false, ranks)
    else do
      let rank ← ranks[i]?
      if rank ≠ unranked then some (false, ranks)
      else rankFrom nodes (ranks.set i next) (next + 1) rest

namespace Graph

/-- Whether the ranks go up along the edge with this number. -/
def goesUp (g : Graph) (ranks : List Nat) (e : Nat) : Option Bool := do
  let l ← g.links[e]?
  let source ← ranks[l.source]?
  let target ← ranks[l.target]?
  return source < target

/-- The check of an order by ranks. The edges are looked at only if all nodes have a rank, and up
to the first one that goes down. -/
def checkByRank (g : Graph) (order : List Nat) : Option OrderCert := do
  let nodes := g.nodes.length
  let (through, ranks) ← rankFrom nodes (List.replicate nodes unranked) 0 order
  let once := decide (order.length = nodes) && through
  let forward ← if once then (List.range g.edges.length).allM (g.goesUp ranks) else some false
  return { allNodesOnce := once, edgesForward := forward }

end Graph

/-! ## Looking within the table -/

theorem allM_eq_some {α : Type} {f : α → Option Bool} {p : α → Bool} {l : List α}
    (h : ∀ a ∈ l, f a = some (p a)) : l.allM f = some (l.all p) := by
  induction l with
  | nil => rfl
  | cons a l ih =>
    obtain ⟨ha, hl⟩ := List.forall_mem_cons.1 h
    rw [List.allM, ha, List.all_cons]
    cases p a with
    | false => rfl
    | true => exact ih hl

theorem exists_rankFrom {nodes next : Nat} {ranks order : List Nat} (h : ranks.length = nodes) :
    ∃ through ranks', rankFrom nodes ranks next order = some (through, ranks') ∧
      ranks'.length = nodes := by
  induction order generalizing ranks next with
  | nil => exact ⟨true, ranks, rfl, h⟩
  | cons i rest ih =>
    rw [rankFrom]
    split
    · exact ⟨false, ranks, rfl, h⟩
    · rename_i hi
      have hrank : ranks[i]? = some ranks[i] := List.getElem?_eq_getElem (by omega)
      rw [hrank, Option.bind_eq_bind, Option.bind_some]
      split
      · exact ⟨false, ranks, rfl, h⟩
      · exact ih (by rw [List.length_set, h])

/-! ## The ranks of an order -/

/-- The table holds the places of the nodes of `done`, and no other node has a rank. -/
structure Ranked (nodes : Nat) (ranks done : List Nat) : Prop where
  length : ranks.length = nodes
  nodup : done.Nodup
  lt : ∀ i ∈ done, i < nodes
  rank : ∀ i < nodes, ranks[i]? = some (if i ∈ done then done.idxOf i else unranked)

theorem ranked_start (nodes : Nat) : Ranked nodes (List.replicate nodes unranked) [] where
  length := List.length_replicate
  nodup := List.nodup_nil
  lt := by simp
  rank i hi := by simp [hi]

/-- One turn: the next node gets the next rank. -/
theorem Ranked.step {nodes i : Nat} {ranks done : List Nat} (h : Ranked nodes ranks done)
    (hi : i < nodes) (hnew : i ∉ done) :
    Ranked nodes (ranks.set i done.length) (done ++ [i]) where
  length := by rw [List.length_set, h.length]
  nodup := by
    rw [List.nodup_append]
    refine ⟨h.nodup, List.nodup_singleton i, ?_⟩
    rintro a ha b hb rfl
    exact hnew (List.mem_singleton.1 hb ▸ ha)
  lt j hj := by
    rcases List.mem_append.1 hj with hj | hj
    · exact h.lt j hj
    · exact List.mem_singleton.1 hj ▸ hi
  rank j hj := by
    by_cases hij : i = j
    · subst hij
      rw [List.getElem?_set_self (by rw [h.length]; exact hi), if_pos (by simp),
        List.idxOf_append_of_notMem hnew, List.idxOf_cons_self, Nat.add_zero]
    · rw [List.getElem?_set_ne hij, h.rank j hj]
      by_cases hd : j ∈ done
      · rw [if_pos hd, if_pos (by simp [hd]), List.idxOf_append_of_mem hd]
      · rw [if_neg hd, if_neg (by simp [hd, Ne.symm hij])]

/-- The walk comes through exactly if no place is past the nodes and none comes again, and then
the table holds all ranks. -/
theorem Ranked.run {nodes : Nat} {ranks ranks' done rest : List Nat} {through : Bool}
    (h : Ranked nodes ranks done) (hlen : (done ++ rest).length ≤ unranked)
    (hrun : rankFrom nodes ranks done.length rest = some (through, ranks')) :
    (through = true ↔ (done ++ rest).Nodup ∧ ∀ i ∈ rest, i < nodes) ∧
      (through = true → Ranked nodes ranks' (done ++ rest)) := by
  induction rest generalizing ranks done with
  | nil =>
    cases hrun
    rw [List.append_nil]
    exact ⟨by simp [h.nodup], fun _ => h⟩
  | cons i rest ih =>
    rw [rankFrom] at hrun
    split at hrun
    · rename_i hi
      cases hrun
      refine ⟨iff_of_false Bool.false_ne_true fun hall => ?_, by simp⟩
      have := hall.2 i List.mem_cons_self
      omega
    · rename_i hi
      have hi : i < nodes := by omega
      rw [h.rank i hi, Option.bind_eq_bind, Option.bind_some] at hrun
      by_cases hd : i ∈ done
      · -- the rank of the node is a place, so it is not the mark for no rank
        have hplace := List.idxOf_lt_length_of_mem hd
        rw [List.length_append] at hlen
        rw [if_pos hd, if_pos (by omega)] at hrun
        cases hrun
        refine ⟨iff_of_false Bool.false_ne_true fun hall => ?_, by simp⟩
        exact notMem_before hall.1 hd
      · rw [if_neg hd, if_neg (by simp)] at hrun
        have hsplit : done ++ i :: rest = done ++ [i] ++ rest := by simp
        have hnext : done.length + 1 = (done ++ [i]).length := by simp
        rw [hsplit] at hlen ⊢
        rw [hnext] at hrun
        rw [List.forall_mem_cons, and_iff_right hi]
        exact ih (h.step hi hd) hlen hrun

namespace Graph

variable {g : Graph} {order : List Nat}

/-! ## The edges -/

theorem exists_link {e : Nat} (he : e < g.edges.length) : ∃ l ∈ g.links, g.links[e]? = some l := by
  have hlt : e < g.links.length := by rwa [g.links_eq, List.length_map]
  exact ⟨_, List.getElem_mem hlt, List.getElem?_eq_getElem hlt⟩

theorem allM_goesUp {ranks : List Nat} (h : ranks.length = g.nodes.length) :
    (List.range g.edges.length).allM (g.goesUp ranks) = some (decide
      (∀ l ∈ g.links, ranks[l.source]?.getD 0 < ranks[l.target]?.getD 0)) := by
  have hup : ∀ e ∈ List.range g.edges.length, g.goesUp ranks e =
      some ((g.links[e]?).any fun l => ranks[l.source]?.getD 0 < ranks[l.target]?.getD 0) := by
    intro e he
    obtain ⟨l, hl, hlink⟩ := exists_link (List.mem_range.1 he)
    obtain ⟨hs, ht⟩ := link_ends_lt hl
    simp [goesUp, hlink, h, hs, ht]
  rw [allM_eq_some hup, Option.some.injEq, Bool.eq_iff_iff, List.all_eq_true, decide_eq_true_eq]
  constructor
  · intro hall l hl
    obtain ⟨e, hlink⟩ := List.mem_iff_getElem?.1 hl
    have hlt : e < g.edges.length := by
      have := (List.getElem?_eq_some_iff.1 hlink).1
      rwa [g.links_eq, List.length_map] at this
    simpa [hlink] using hall e (List.mem_range.2 hlt)
  · intro hall e he
    obtain ⟨l, hl, hlink⟩ := exists_link (List.mem_range.1 he)
    simpa [hlink] using hall l hl

/-! ## Checks -/

/-- What a check says, by what the walk over the order left behind. -/
theorem checkByRank_of_run {through once : Bool} {ranks : List Nat}
    (hrun : rankFrom g.nodes.length (List.replicate g.nodes.length unranked) 0 order =
      some (through, ranks)) (hranks : ranks.length = g.nodes.length)
    (honce : (decide (order.length = g.nodes.length) && through) = once) :
    g.checkByRank order = some {
      allNodesOnce := once
      edgesForward := once && decide
        (∀ l ∈ g.links, ranks[l.source]?.getD 0 < ranks[l.target]?.getD 0) } := by
  have hforward := allM_goesUp hranks
  simp only [checkByRank, hrun, Option.bind_eq_bind, Option.bind_some, honce]
  cases once with
  | false => rfl
  | true =>
    rw [if_pos rfl, hforward, Bool.true_and]
    rfl

/-- No look-up of a check is past the end of a table. -/
theorem exists_cert (g : Graph) (order : List Nat) : ∃ cert, g.checkByRank order = some cert := by
  obtain ⟨through, ranks, hrun, hranks⟩ := exists_rankFrom List.length_replicate
  exact ⟨_, checkByRank_of_run hrun hranks rfl⟩

theorem allNodesOnce_iff : (g.orderCert order).allNodesOnce = true ↔
    order.length = g.nodes.length ∧ order.Nodup ∧ ∀ i ∈ order, i < g.nodes.length := by
  simp only [orderCert, decide_eq_true_eq]

theorem edgesForward_iff : (g.orderCert order).edgesForward = true ↔
    (g.orderCert order).allNodesOnce = true ∧
      ∀ l ∈ g.links, order.idxOf l.source < order.idxOf l.target := by
  simp only [orderCert, decide_eq_true_eq]

/-- As many different nodes as there are nodes are all of them. -/
theorem allNodesOnce_iff_perm : (g.orderCert order).allNodesOnce = true ↔
    order.Perm (List.range g.nodes.length) := by
  rw [allNodesOnce_iff]
  constructor
  · rintro ⟨hlen, hnd, hlt⟩
    have hsub : order ⊆ List.range g.nodes.length := fun i hi => List.mem_range.2 (hlt i hi)
    exact (List.subperm_of_subset hnd hsub).perm_of_length_le (by rw [List.length_range, hlen])
  · intro h
    exact ⟨by simpa using h.length_eq, h.nodup_iff.2 List.nodup_range,
      fun i hi => List.mem_range.1 (h.mem_iff.1 hi)⟩

/-- The table of ranks gives the same verdicts, as long as the mark for no rank is no place. -/
theorem checkByRank_eq (order : List Nat) (hsize : g.nodes.length < 2 ^ 64) :
    g.checkByRank order = some (g.orderCert order) := by
  obtain ⟨through, ranks, hrun, hranks⟩ := exists_rankFrom List.length_replicate
  have hwalk : order.length = g.nodes.length →
      (through = true ↔ order.Nodup ∧ ∀ i ∈ order, i < g.nodes.length) ∧
      (through = true → Ranked g.nodes.length ranks order) := by
    intro hlen
    refine (ranked_start g.nodes.length).run ?_ hrun
    rw [List.nil_append, hlen, unranked]
    omega
  have honce : (decide (order.length = g.nodes.length) && through) =
      (g.orderCert order).allNodesOnce := by
    rw [Bool.eq_iff_iff, Bool.and_eq_true, decide_eq_true_eq, allNodesOnce_iff]
    exact and_congr_right fun hlen => (hwalk hlen).1
  have hforward : ((g.orderCert order).allNodesOnce && decide
      (∀ l ∈ g.links, ranks[l.source]?.getD 0 < ranks[l.target]?.getD 0)) =
      (g.orderCert order).edgesForward := by
    rw [Bool.eq_iff_iff, Bool.and_eq_true, edgesForward_iff, decide_eq_true_eq]
    refine and_congr_right fun hall => ?_
    have hperm := allNodesOnce_iff_perm.1 hall
    obtain ⟨hlen, hdone⟩ := allNodesOnce_iff.1 hall
    have hranked := (hwalk hlen).2 ((hwalk hlen).1.2 hdone)
    have hplace : ∀ i < g.nodes.length, ranks[i]?.getD 0 = order.idxOf i := by
      intro i hi
      rw [hranked.rank i hi, if_pos (hperm.mem_iff.2 (List.mem_range.2 hi)), Option.getD_some]
    refine forall₂_congr fun l hl => ?_
    obtain ⟨hs, ht⟩ := link_ends_lt hl
    rw [hplace _ hs, hplace _ ht]
  rw [checkByRank_of_run hrun hranks honce, hforward]

/-- What passes the check is an order. -/
theorem isOrder_of_orderCert (h : g.orderCert order = ⟨true, true⟩) : g.IsOrder order := by
  have hperm := allNodesOnce_iff_perm.1 (congrArg OrderCert.allNodesOnce h)
  refine ⟨hperm.nodup_iff.2 List.nodup_range, fun i => ?_,
    (edgesForward_iff.1 (congrArg OrderCert.edgesForward h)).2⟩
  rw [hperm.mem_iff, List.mem_range]

end Graph

/-! ## What passes -/

/-- In a list without repeats an item stands before another one exactly if it is found earlier. -/
theorem idxOf_lt_iff {α : Type} [DecidableEq α] {l : List α} {a b : α} (hnd : l.Nodup) (ha : a ∈ l)
    (hb : b ∈ l) : l.idxOf a < l.idxOf b ↔ ∃ i j : Nat, i < j ∧ l[i]? = some a ∧ l[j]? = some b := by
  have hfound : ∀ {i : Nat} {c : α}, l[i]? = some c → l.idxOf c = i := by
    intro i c h
    obtain ⟨hi, rfl⟩ := List.getElem?_eq_some_iff.1 h
    exact hnd.idxOf_getElem i hi
  constructor
  · intro h
    exact ⟨_, _, h, List.getElem?_idxOf ha, List.getElem?_idxOf hb⟩
  · rintro ⟨i, j, hij, hi, hj⟩
    rwa [hfound hi, hfound hj]

/-- The check of an order by ranks never looks past the end of a table, whatever list it is
given, and it says what the check of the builds says. The list holds every node once exactly if
it is a rearrangement of the positions. It has every edge go forward exactly if moreover the
source of each edge stands at an earlier place than the target. -/
theorem orderCert_exact (g : Graph) (order : List Nat) :
    (∃ cert, g.checkByRank order = some cert) ∧
    (g.nodes.length < 2 ^ 64 → g.checkByRank order = some (g.orderCert order)) ∧
    ((g.orderCert order).allNodesOnce = true ↔ order.Perm (List.range g.nodes.length)) ∧
    ((g.orderCert order).edgesForward = true ↔ order.Perm (List.range g.nodes.length) ∧
      ∀ e ∈ g.edges, ∃ i j : Nat, i < j ∧
        order[i]? = some (g.index e.source) ∧ order[j]? = some (g.index e.target)) := by
  refine ⟨g.exists_cert order, Graph.checkByRank_eq order, Graph.allNodesOnce_iff_perm, ?_⟩
  rw [Graph.edgesForward_iff, Graph.allNodesOnce_iff_perm, g.links_eq, List.forall_mem_map]
  refine and_congr_right fun hperm => forall₂_congr fun e he => ?_
  have hmem : ∀ id ∈ g.ids, g.index id ∈ order := fun id hid =>
    hperm.mem_iff.2 (List.mem_range.2 (Graph.index_lt hid))
  obtain ⟨hs, ht⟩ := g.ends_known e he
  exact idxOf_lt_iff (hperm.nodup_iff.2 List.nodup_range) (hmem _ hs) (hmem _ ht)

/-- An output, an input and an inverter between them. -/
def stepped : Graph where
  nodes := [{ id := "o", kind := .output (some 8) }, { id := "a", kind := .input (some 2) },
    { id := "n", kind := .not }]
  edges := [{ source := "a", target := "n" }, { source := "n", target := "o" }]
  ids_nodup := by decide
  ends_known := by decide

/-- The order of the signals passes, one that takes the inverter first does not, and a list with a
position that is no node is not even compared with the edges. -/
theorem stepped_checked :
    stepped.nodes.length < 2 ^ 64 ∧
    (stepped.checkByRank [1, 2, 0] = some ⟨true, true⟩ ∧
      ∀ e ∈ stepped.edges, ∃ i j : Nat, i < j ∧ [1, 2, 0][i]? = some (stepped.index e.source) ∧
        [1, 2, 0][j]? = some (stepped.index e.target)) ∧
    (stepped.checkByRank [2, 1, 0] = some ⟨true, false⟩ ∧ [2, 1, 0].Perm (List.range 3)) ∧
    (stepped.checkByRank [1, 2 ^ 64 - 1, 1] = some ⟨false, false⟩ ∧
      ¬ [1, 2 ^ 64 - 1, 1].Perm (List.range 3)) := by
  have hsize : stepped.nodes.length < 2 ^ 64 := by decide
  have hpass : stepped.orderCert [1, 2, 0] = ⟨true, true⟩ := by decide
  have hback : stepped.orderCert [2, 1, 0] = ⟨true, false⟩ := by decide
  have hfar : stepped.orderCert [1, 2 ^ 64 - 1, 1] = ⟨false, false⟩ := by decide
  obtain ⟨-, hchecked, -, hforward⟩ := orderCert_exact stepped [1, 2, 0]
  obtain ⟨-, hchecked', honce', -⟩ := orderCert_exact stepped [2, 1, 0]
  obtain ⟨-, hchecked'', honce'', -⟩ := orderCert_exact stepped [1, 2 ^ 64 - 1, 1]
  rw [hpass] at hchecked hforward
  rw [hback] at hchecked' honce'
  rw [hfar] at hchecked'' honce''
  exact ⟨hsize, ⟨hchecked hsize, (hforward.1 rfl).2⟩, ⟨hchecked' hsize, honce'.1 rfl⟩,
    hchecked'' hsize, fun h => Bool.false_ne_true (honce''.2 h)⟩

end LogicWiring
