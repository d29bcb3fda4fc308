-- Placing nodes, with each count checked. An edge can be taken off only where
-- one is left; the placing never tries otherwise, and it comes to an end. Main
-- statement: `evaluationOrder_exact`, an order is found for the graphs without
-- a cycle, and for no other.
import LogicWiring.Proofs.Cycles
import Mathlib

namespace LogicWiring

/-! ## Checked counts -/

/-- One edge is taken off for each target in turn, from a count that is not zero. At the
end the counts are `left`, and `ready` are the targets whose count became zero. -/
inductive TakenOff : List Nat → List Nat → List Nat → List Nat → Prop
  | none {pending : List Nat} : TakenOff pending [] pending []
  | last {pending rest left ready : List Nat} {t : Nat} : pending[t]? = some 1 →
    TakenOff (pending.set t 0) rest left ready → TakenOff pending (t :: rest) left (t :: ready)
  | more {pending rest left ready : List Nat} {t k : Nat} : pending[t]? = some (k + 2) →
    TakenOff (pending.set t (k + 1)) rest left ready → TakenOff pending (t :: rest) left ready

theorem TakenOff.release_eq {pending targets left ready : List Nat}
    (h : TakenOff pending targets left ready) : release pending targets = (left, ready) := by
  induction h with
  | none => rfl
  | last ht _ ih => simp [release, ht, ih]
  | more ht _ ih => simp [release, ht, ih]

/-- Counts that are large enough for the targets never run out. -/
theorem takenOff_release {pending targets : List Nat}
    (h : ∀ t, targets.count t ≤ pending[t]?.getD 0) :
    TakenOff pending targets (release pending targets).1 (release pending targets).2 := by
  induction targets generalizing pending with
  | nil => exact .none
  | cons t rest ih =>
    have hrest := @ih (pending.set t (pending[t]?.getD 0 - 1)) fun j => by
      have hj := h j
      rw [List.count_cons] at hj
      rw [getD_set_pred]
      simp only [beq_iff_eq] at hj
      omega
    have hpos : 0 < pending[t]?.getD 0 := by
      have ht := h t
      rw [List.count_cons_self] at ht
      omega
    cases hk : pending[t]? with
    | none => simp [hk] at hpos
    | some k =>
      rw [hk, Option.getD_some] at hrest hpos
      match k with
      | 1 =>
        simp only [release, hk, Option.getD_some, if_true]
        exact .last hk hrest
      | k + 2 =>
        simp only [release, hk, Option.getD_some]
        exact .more hk hrest

namespace Graph

variable {g : Graph}

/-! ## Checked placing -/

/-- The nodes of the queue, and all that become ready after them, are placed one after the
other until none is left. Each count is checked on the way. -/
inductive Places (g : Graph) : List Nat → List Nat → List Nat → List Nat → Prop
  | done {pending : List Nat} : Places g pending [] [] pending
  | turn {pending rest pending' ready placed left : List Nat} {i : Nat} :
    TakenOff pending (g.successors i) pending' ready →
    Places g pending' (rest ++ ready) placed left →
    Places g pending (i :: rest) (i :: placed) left

theorem Places.place_eq {pending queue placed left : List Nat}
    (h : g.Places pending queue placed left) : g.place pending queue = (placed, left) := by
  induction h with
  | done => rw [place]
  | turn htaken _ ih =>
    rw [place, htaken.release_eq]
    simp only [ih]

/-- The edges from a node that is not placed yet are all counted. -/
theorem count_successors_le {done : List Nat} {i : Nat} (hi : i ∉ done) (j : Nat) :
    (g.successors i).count j ≤ g.waitingFor done j := by
  rw [count_successors]
  apply List.countP_mono_left
  intro l _ hl
  obtain ⟨rfl, rfl⟩ := of_decide_eq_true hl
  simp [hi]

theorem Placing.places {done queue pending : List Nat} (h : g.Placing done queue pending) :
    g.Places pending queue (g.place pending queue).1 (g.place pending queue).2 := by
  fun_induction g.place pending queue generalizing done with
  | case1 => exact .done
  | case2 pending i rest released placed left hp =>
    rename_i ih
    have hi : i ∉ done := notMem_before h.nodup
    have htaken := @takenOff_release pending (g.successors i) fun j => by
      rw [h.counts]
      exact count_successors_le hi j
    have hrest := ih h.step
    rw [hp] at hrest
    exact .turn htaken hrest

theorem places_iff {placed left : List Nat} :
    g.Places g.inDegrees g.roots placed left ↔ g.place g.inDegrees g.roots = (placed, left) := by
  refine ⟨Places.place_eq, fun h => ?_⟩
  have hplaces := (placing_start (g := g)).places
  rwa [h] at hplaces

end Graph

/-! ## Orders found -/

open Classical in
/-- Placing the nodes is one run that ends, and no count goes below zero in it. An order comes
out exactly if there is no cycle; it holds every node once, has every edge go forward, and
passes its check. If there is a cycle, the error names the nodes that lie on one or come after
one, in node order and each of them once. -/
theorem evaluationOrder_exact (g : Graph) :
    let unplaced := g.ids.filter fun id => g.HeldBack id
    (∀ placed left, g.Places g.inDegrees g.roots placed left ↔
      g.place g.inDegrees g.roots = (placed, left)) ∧
    ((∃ order, g.evaluationOrder = .ok order) ↔ ¬ g.Cyclic) ∧
    (∀ order, g.evaluationOrder = .ok order → order.Perm (List.range g.nodes.length) ∧
      (∀ l ∈ g.links, order.idxOf l.source < order.idxOf l.target) ∧
      g.orderCert order = ⟨true, true⟩) ∧
    (g.Cyclic → g.evaluationOrder = .error (.cycle unplaced)) ∧ unplaced.Nodup := by
  intro unplaced
  have hcyclic : g.Cyclic → g.evaluationOrder = .error (.cycle unplaced) := fun h =>
    Graph.evaluationOrder_eq_cycle_iff.2 ⟨h, rfl⟩
  refine ⟨fun placed left => Graph.places_iff, Graph.exists_order_iff, fun order ho => ?_,
    hcyclic, g.ids_nodup.filter _⟩
  have horder := Graph.isOrder_of_evaluationOrder ho
  exact ⟨horder.perm_range, horder.forward, horder.orderCert_eq⟩

/-- An input on both handles of a gate, which stands before it. -/
def doubled : Graph where
  nodes := [{ id := "x", kind := .gate .and 2 }, { id := "a", kind := .input (some 2) },
    { id := "o", kind := .output (some 8) }]
  edges := [{ source := "a", target := "x", targetHandle := "in0" }, { source := "x", target := "o" },
    { source := "a", target := "x", targetHandle := "in1" }]
  ids_nodup := by decide
  ends_known := by decide

/-- An inverter that reads itself, twice, and drives an output. -/
def selfDriven : Graph where
  nodes := [{ id := "a", kind := .input (some 2) }, { id := "o", kind := .output (some 8) },
    { id := "n", kind := .not }]
  edges := [{ source := "n", target := "n" }, { source := "n", target := "o" },
    { source := "n", target := "n" }]
  ids_nodup := by decide
  ends_known := by decide

open Classical in
theorem doubled_and_selfDriven_exact :
    (doubled.evaluationOrder = .ok [1, 0, 2] ∧ [1, 0, 2].Perm (List.range doubled.nodes.length) ∧
      (∀ l ∈ doubled.links, [1, 0, 2].idxOf l.source < [1, 0, 2].idxOf l.target) ∧
      doubled.orderCert [1, 0, 2] = ⟨true, true⟩ ∧ ¬ doubled.Cyclic) ∧
    (selfDriven.Cyclic ∧ selfDriven.evaluationOrder = .error (.cycle ["o", "n"]) ∧
      selfDriven.ids.filter (fun id => selfDriven.HeldBack id) = ["o", "n"]) := by
  have hdoubled : doubled.evaluationOrder = .ok [1, 0, 2] := by cbv
  have hself : selfDriven.evaluationOrder = .error (.cycle ["o", "n"]) := by cbv
  have hloop : selfDriven.Cyclic :=
    ⟨"n", .single ⟨{ source := "n", target := "n" }, by decide, rfl, rfl⟩⟩
  refine ⟨⟨hdoubled, ?_⟩, hloop, hself, ?_⟩
  · obtain ⟨hperm, hforward, hcert⟩ := (evaluationOrder_exact doubled).2.2.1 _ hdoubled
    exact ⟨hperm, hforward, hcert, (evaluationOrder_exact doubled).2.1.1 ⟨_, hdoubled⟩⟩
  · have herror := (evaluationOrder_exact selfDriven).2.2.2.1 hloop
    rw [hself] at herror
    exact (CompileError.cycle.inj (Except.error.inj herror)).symm

end LogicWiring
