-- One graph in two orders. Which nodes are live, and the instruction that a
-- node has, follow from the graph and the slots alone, so another order only
-- puts the instructions of the body in other places. Main statement:
-- `program_reordered`.
import LogicWiring.Proofs.Limits
import LogicWiring.Proofs.OrderCheck
import LogicWiring.Proofs.ReadBack
import Mathlib

namespace LogicWiring

namespace Graph

variable {g : Graph} {m : SlotMap} {first second order : List Nat}

theorem liveness_eq (hfirst : g.IsOrder first) (hsecond : g.IsOrder second) :
    g.liveness first = g.liveness second := by
  refine List.ext_getElem ?_ fun i hi hi' => ?_
  · rw [length_liveness, length_liveness]
  · have h := (liveness_iff hfirst i).trans (liveness_iff hsecond i).symm
    rw [List.getElem?_eq_getElem hi, List.getElem?_eq_getElem hi'] at h
    exact Bool.eq_iff_iff.2 h

theorem IsOrder.perm (hfirst : g.IsOrder first) (hsecond : g.IsOrder second) :
    first.Perm second :=
  hfirst.perm_range.trans hsecond.perm_range.symm

/-- The values that are checked are the same ones in another order, though another one of them
may be the first that is too large. -/
theorem exists_program_iff (hfirst : g.IsOrder first) (hsecond : g.IsOrder second) :
    (∃ p, g.program first m = .ok p) ↔ ∃ q, g.program second m = .ok q := by
  rw [(g.program_checks first m).eq_ok_iff, (g.program_checks second m).eq_ok_iff,
    liveness_eq hfirst hsecond]
  have hlimits := (((hfirst.perm hsecond).filter fun i =>
    (g.liveness second)[i]?.getD false).flatMap_right (g.limitsAt m))
  exact forall_congr' fun l => imp_congr_left (hlimits.append_left _).mem_iff

/-! ## Bodies -/

open Classical in
/-- The instruction that a node has in the body of every order: its emission, if it is live. -/
noncomputable def share (g : Graph) (m : SlotMap) (i : Nat) : Option Instruction :=
  if g.Live i then g.emission m i else none

theorem body_eq_filterMap_share {body : List Instruction} (ho : g.IsOrder order)
    (h : g.body order m (g.liveness order) = .ok body) : body = order.filterMap (g.share m) := by
  rw [body_eq_ok h, ← List.filterMap_eq_filter, List.filterMap_filterMap]
  apply List.filterMap_congr
  intro i _
  unfold share
  by_cases hl : g.Live i
  · have hverdict := (liveness_iff ho i).2 hl
    simp [hl, hverdict]
  · have hverdict : ¬ (g.liveness order)[i]?.getD false = true := mt (liveness_iff ho i).1 hl
    simp [hl, hverdict]

theorem length_encode_perm {is js : List Instruction} (h : is.Perm js) :
    (encode is).length = (encode js).length :=
  (h.flatMap_right Instruction.bytes).length_eq

end Graph

/-- Of two orders of a graph, with the same slots, either both give a program or neither does.
Both programs begin with the same bytes up to the body, reserve as many slots and are equally
long. Their bodies hold the same instructions, each at the place of its node in the order. -/
theorem program_reordered {g : Graph} {first second : List Nat} (m : SlotMap)
    (hfirst : g.IsOrder first) (hsecond : g.IsOrder second) :
    ((∃ p, g.program first m = .ok p) ↔ ∃ q, g.program second m = .ok q) ∧
    ∀ p q, g.program first m = .ok p → g.program second m = .ok q →
      p.bytes.take p.bodyOffset = q.bytes.take q.bodyOffset ∧ p.bodyOffset = q.bodyOffset ∧
      p.slotCount = q.slotCount ∧ p.bytes.length = q.bytes.length ∧
      ∃ body body' : List Instruction,
        decode (p.bytes.drop p.bodyOffset) = .ok (placeFrom 0 body) ∧
        decode (q.bytes.drop q.bodyOffset) = .ok (placeFrom 0 body') ∧
        body.Perm body' ∧
        body = first.filterMap (g.share m) ∧ body' = second.filterMap (g.share m) := by
  refine ⟨Graph.exists_program_iff hfirst hsecond, fun p q hp hq => ?_⟩
  obtain ⟨modes, body, hmodes, hbody, rfl⟩ := Graph.program_eq_ok hp
  obtain ⟨modes', body', hmodes', hbody', rfl⟩ := Graph.program_eq_ok hq
  rw [Graph.liveness_eq hfirst hsecond, hmodes'] at hmodes
  cases hmodes
  have hshares := Graph.body_eq_filterMap_share hfirst hbody
  have hshares' := Graph.body_eq_filterMap_share hsecond hbody'
  have hperm : body.Perm body' := by
    rw [hshares, hshares']
    exact (hfirst.perm hsecond).filterMap _
  refine ⟨?_, rfl, rfl, ?_, body, body', ?_, ?_, hperm, hshares, hshares'⟩
  · rw [List.take_left, List.take_left]
  · rw [List.length_append, List.length_append, Graph.length_encode_perm hperm]
  · rw [List.drop_left]
    exact Graph.decode_body hbody
  · rw [List.drop_left]
    exact Graph.decode_body hbody'

/-- Two inputs on a gate, and an inverter that only feeds an output without a pin. -/
def spread : Graph where
  nodes := [
    { id := "a", kind := .input (some 2) }, { id := "b", kind := .input (some 3) },
    { id := "x", kind := .gate .xor 2 }, { id := "n", kind := .not },
    { id := "o", kind := .output (some 8) }, { id := "u", kind := .output none }]
  edges := [
    { source := "b", target := "x", targetHandle := "in0" },
    { source := "a", target := "x", targetHandle := "in1" },
    { source := "x", target := "o" }, { source := "b", target := "n" },
    { source := "n", target := "u" }]
  ids_nodup := by decide
  ends_known := by decide

/-- Slots that no allocation gives: two nodes share one, and the output has one. -/
def spreadSlots : SlotMap where
  slots := [some 7, some 4, some 200, some 4, some 9]
  count := 3

def spreadProgram : Program where
  bytes := [1, 2, 1, 3, 2, 8, 3, 2, 7, 3, 3, 4, 15, 2, 4, 7, 200, 4, 8, 200]
  slotCount := 3
  bodyOffset := 6

/-- The inputs are read the other way round. -/
def spreadAgain : Program where
  bytes := [1, 2, 1, 3, 2, 8, 3, 3, 4, 3, 2, 7, 15, 2, 4, 7, 200, 4, 8, 200]
  slotCount := 3
  bodyOffset := 6

theorem spread_reordered :
    (spread.IsOrder [0, 1, 2, 3, 4, 5] ∧ spread.IsOrder [1, 3, 5, 0, 2, 4]) ∧
    (spread.program [0, 1, 2, 3, 4, 5] spreadSlots = .ok spreadProgram ∧
      spread.program [1, 3, 5, 0, 2, 4] spreadSlots = .ok spreadAgain) ∧
    ∃ body body' : List Instruction,
      decode (spreadProgram.bytes.drop spreadProgram.bodyOffset) = .ok (placeFrom 0 body) ∧
      decode (spreadAgain.bytes.drop spreadAgain.bodyOffset) = .ok (placeFrom 0 body') ∧
      body.Perm body' ∧ body = [0, 1, 2, 3, 4, 5].filterMap (spread.share spreadSlots) ∧
        body' = [1, 3, 5, 0, 2, 4].filterMap (spread.share spreadSlots) := by
  have hfirst : spread.IsOrder [0, 1, 2, 3, 4, 5] := Graph.isOrder_of_orderCert (by decide)
  have hsecond : spread.IsOrder [1, 3, 5, 0, 2, 4] := Graph.isOrder_of_orderCert (by decide)
  have hlive : spread.liveness [0, 1, 2, 3, 4, 5] = [true, true, true, false, true, false] := by
    decide
  have hlive' : spread.liveness [1, 3, 5, 0, 2, 4] = [true, true, true, false, true, false] := by
    decide
  have hp : spread.program [0, 1, 2, 3, 4, 5] spreadSlots = .ok spreadProgram := by
    rw [Graph.program, hlive]
    cbv
  have hagain : spread.program [1, 3, 5, 0, 2, 4] spreadSlots = .ok spreadAgain := by
    rw [Graph.program, hlive']
    cbv
  obtain ⟨-, -, -, -, hbodies⟩ := (program_reordered spreadSlots hfirst hsecond).2 _ _ hp hagain
  exact ⟨⟨hfirst, hsecond⟩, ⟨hp, hagain⟩, hbodies⟩

end LogicWiring
