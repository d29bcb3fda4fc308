-- The values that have to fit their operands. Each step of making a program
-- checks its own, and the first value that is too large is reported. Main
-- statement: `program_checks`, for any order and any slots.
import LogicWiring.Proofs.Operands

namespace LogicWiring

/-- A value of a node, and the largest one that fits its operand. -/
structure Limit where
  node : String
  field : OperandField
  value : Nat
  max : Nat
  deriving DecidableEq, Repr

def Limit.exceeded (l : Limit) : Bool := l.max < l.value

def Limit.error (l : Limit) : CompileError := .operandRange l.node l.field l.value l.max

theorem Limit.error_inj {l l' : Limit} : l.error = l'.error ↔ l = l' := by
  cases l
  cases l'
  simp [Limit.error]

/-! ## Checking -/

/-- Fails with the first of these limits that is exceeded, and succeeds if none is. -/
def Checks {α : Type} (limits : List Limit) (x : Except CompileError α) : Prop :=
  match limits.find? Limit.exceeded with
  | some l => x = .error l.error
  | none => ∃ a, x = .ok a

namespace Checks

variable {α β : Type} {limits later : List Limit} {x : Except CompileError α}

theorem ok (a : α) : Checks [] (.ok a) := ⟨a, rfl⟩

theorem bind {f : α → Except CompileError β} (hx : Checks limits x)
    (hf : ∀ a, Checks later (f a)) : Checks (limits ++ later) (x >>= f) := by
  unfold Checks at hx ⊢
  rw [List.find?_append]
  cases hfind : limits.find? Limit.exceeded with
  | some l =>
    rw [hfind] at hx
    subst hx
    rfl
  | none =>
    rw [hfind] at hx
    obtain ⟨a, rfl⟩ := hx
    exact hf a

/-- What follows checks nothing. -/
theorem map {f : α → Except CompileError β} (hx : Checks limits x)
    (hf : ∀ a, ∃ b, f a = .ok b) : Checks limits (x >>= f) := by
  have h : Checks (limits ++ []) (x >>= f) := hx.bind hf
  rwa [List.append_nil] at h

theorem mapM {limitsOf : α → List Limit} {f : α → Except CompileError β} {l : List α}
    (hf : ∀ a ∈ l, Checks (limitsOf a) (f a)) : Checks (l.flatMap limitsOf) (l.mapM f) := by
  induction l with
  | nil => exact ok []
  | cons a l ih =>
    rw [List.mapM_cons, List.flatMap_cons]
    have hrest := ih fun b hb => hf b (List.mem_cons_of_mem a hb)
    exact (hf a List.mem_cons_self).bind fun b => hrest.map fun bs => ⟨b :: bs, rfl⟩

theorem eq_error_iff (h : Checks limits x) {e : CompileError} :
    x = .error e ↔ ∃ l, limits.find? Limit.exceeded = some l ∧ e = l.error := by
  unfold Checks at h
  split at h
  · rename_i l hfind
    subst h
    simp [hfind, eq_comm]
  · rename_i hfind
    obtain ⟨a, rfl⟩ := h
    simp [hfind]

/-- The error names the first limit that is exceeded. -/
theorem eq_limit_error_iff (h : Checks limits x) {l : Limit} :
    x = .error l.error ↔ limits.find? Limit.exceeded = some l := by
  rw [h.eq_error_iff]
  simp [Limit.error_inj]

theorem exists_error_iff (h : Checks limits x) :
    (∃ l : Limit, x = .error l.error) ↔ ∃ l ∈ limits, l.max < l.value := by
  simp only [h.eq_limit_error_iff, ← Option.isSome_iff_exists, List.find?_isSome, Limit.exceeded,
    decide_eq_true_eq]

theorem eq_ok_iff (h : Checks limits x) : (∃ a, x = .ok a) ↔ ∀ l ∈ limits, l.value ≤ l.max := by
  have hok : (∃ a, x = .ok a) ↔ ¬ ∃ l : Limit, x = .error l.error := by
    unfold Checks at h
    split at h
    · simp [h, Limit.error_inj]
    · obtain ⟨a, rfl⟩ := h
      simp
  rw [hok, h.exists_error_iff]
  simp

theorem failsIn (h : Checks limits x) : FailsIn .codegen x := by
  intro e he
  obtain ⟨l, -, rfl⟩ := h.eq_error_iff.1 he
  rfl

end Checks

/-! ## Operands -/

theorem byteOperand_checks (n : Node) (field : OperandField) (value : Nat) :
    Checks [⟨n.id, field, value, 255⟩] (byteOperand n field value) := by
  unfold byteOperand Checks
  by_cases h : value ≤ 255
  · simp [Limit.exceeded, h, Nat.not_lt.2 h]
  · simp [Limit.exceeded, Limit.error, h, Nat.lt_of_not_le h]

theorem wordOperand_checks (n : Node) (field : OperandField) (value : UInt32) :
    Checks [⟨n.id, field, value.toNat, 65535⟩] (wordOperand n field value) := by
  unfold wordOperand Checks
  by_cases h : value.toNat ≤ 65535
  · simp [Limit.exceeded, h, Nat.not_lt.2 h]
  · simp [Limit.exceeded, Limit.error, h, Nat.lt_of_not_le h]

/-- The pin of an input or output that has one. -/
def Node.pinLimits (n : Node) : List Limit :=
  n.kind.pin.toList.map fun pin => ⟨n.id, .pin, pin.toNat, 255⟩

/-- The values of a node that reads `inputs` slots, in the order of its operands. -/
def Node.limits (n : Node) (inputs : Nat) : List Limit :=
  match n.kind with
  | .input _ | .output _ => n.pinLimits
  | .gate _ _ => [⟨n.id, .inputCount, inputs, 255⟩]
  | .pulse length interval =>
    [⟨n.id, .pulseLength, length.toNat, 65535⟩, ⟨n.id, .interval, interval.toNat, 65535⟩]
  | .range min max => [⟨n.id, .min, min.toNat, 65535⟩, ⟨n.id, .max, max.toNat, 65535⟩]
  | .shift width initial =>
    [⟨n.id, .outputWidth, width.toNat, 255⟩, ⟨n.id, .initialState, initial.toNat, 255⟩]
  | .not | .latch _ | .toggle _ | .compare _ => []

theorem pinOperand_checks (n : Node) : Checks n.pinLimits (pinOperand n) := by
  unfold pinOperand Node.pinLimits
  cases n.kind.pin with
  | none => exact ⟨_, rfl⟩
  | some pin => exact byteOperand_checks n .pin pin.toNat

/-! ## Instructions -/

namespace Graph

theorem pinMode_checks (n : Node) : Checks n.pinLimits (pinMode n) := by
  have hpin := pinOperand_checks n
  unfold pinMode
  cases hk : n.kind with
  | input pin | output pin =>
    cases pin with
    | none => simpa [Node.pinLimits, hk, NodeKind.pin] using Checks.ok none
    | some pin => exact hpin.map fun _ => ⟨_, rfl⟩
  | _ => simpa [Node.pinLimits, hk, NodeKind.pin] using Checks.ok none

variable {g : Graph} {m : SlotMap} {i : Nat}

/-- The values of a node that are checked. Only a node with an instruction has any. -/
def limitsAt (g : Graph) (m : SlotMap) (i : Nat) : List Limit :=
  (g.nodes[i]?).elim [] fun n =>
    if (g.emission m i).isSome then n.limits (g.driverSlots m i).length else []

theorem produce_checks {n : Node} (out : UInt8) (hsink : n.kind.isSink = false) :
    Checks (if g.isComplete m i n.kind then n.limits (g.driverSlots m i).length else [])
      (g.produce m i n out) := by
  have hpin := pinOperand_checks n
  unfold produce Node.limits
  cases hk : n.kind with
  | output pin => simp [hk, NodeKind.isSink] at hsink
  | input pin => exact hpin.map fun _ => ⟨_, rfl⟩
  | gate op fanIn =>
    by_cases hlen : (g.driverSlots m i).length < 2
    · simpa [isComplete, hlen, Nat.not_le.2 hlen] using Checks.ok none
    · simp only [isComplete, hlen, Nat.le_of_not_lt hlen]
      exact (byteOperand_checks n .inputCount _).map fun _ => ⟨_, rfl⟩
  | not | toggle initial =>
    simp only [ite_self]
    split <;> exact .ok _
  | latch initial | compare comparator =>
    simp only [ite_self]
    split <;> exact .ok _
  | pulse length interval =>
    exact (wordOperand_checks n .pulseLength length).bind fun _ =>
      (wordOperand_checks n .interval interval).map fun _ => ⟨_, rfl⟩
  | range min max =>
    cases hs : g.driverSlots m i with
    | nil => simpa [isComplete, hs] using Checks.ok none
    | cons s slots =>
      simp only [isComplete, hs]
      exact (wordOperand_checks n .min min).bind fun _ =>
        (wordOperand_checks n .max max).map fun _ => ⟨_, rfl⟩
  | shift width initial =>
    cases hd : g.handleSlot m i "data" with
    | none => simpa [isComplete, hd] using Checks.ok none
    | some data =>
      cases hc : g.handleSlot m i "clock" with
      | none => simpa [isComplete, hc] using Checks.ok none
      | some clock =>
        simp only [isComplete, hd, hc]
        exact (byteOperand_checks n .outputWidth _).bind fun _ =>
          (byteOperand_checks n .initialState _).map fun _ => ⟨_, rfl⟩

theorem instruction_checks (g : Graph) (m : SlotMap) (i : Nat) :
    Checks (g.limitsAt m i) (g.instruction m i) := by
  unfold limitsAt
  cases hn : g.nodes[i]? with
  | none =>
    unfold instruction
    rw [hn]
    exact .ok none
  | some n =>
    rw [Option.elim_some, isSome_emission, kindAt_of_getElem? hn, Option.any_some]
    by_cases hsink : n.kind.isSink = true
    · obtain ⟨pin, hk⟩ : ∃ pin, n.kind = .output pin := by
        cases hk : n.kind <;> simp_all [NodeKind.isSink]
      have hlimits : n.limits (g.driverSlots m i).length = n.pinLimits := by
        simp [Node.limits, hk]
      have hpin := pinOperand_checks n
      unfold instruction
      simp only [hn, hk, isComplete, hlimits]
      exact hpin.map fun _ => ⟨_, rfl⟩
    · have hsink : n.kind.isSink = false := by simpa using hsink
      cases hout : m.get i with
      | none =>
        rw [instruction_of_no_slot hn hsink hout]
        simpa [hsink] using Checks.ok none
      | some out =>
        rw [instruction_of_slot hn hsink hout]
        simpa [hsink] using produce_checks out hsink

/-! ## Programs -/

theorem preamble_checks (g : Graph) (live : List Bool) :
    Checks ((g.nodes.zipIdx.filter fun (n, i) => !n.synthetic && live[i]?.getD false).flatMap
      fun (n, _) => n.pinLimits) (g.preamble live) :=
  (Checks.mapM fun (x : Node × Nat) _ => pinMode_checks x.1).map fun _ => ⟨_, rfl⟩

theorem body_checks (g : Graph) (order : List Nat) (m : SlotMap) (live : List Bool) :
    Checks ((order.filter fun i => live[i]?.getD false).flatMap (g.limitsAt m))
      (g.body order m live) :=
  (Checks.mapM fun i _ => g.instruction_checks m i).map fun _ => ⟨_, rfl⟩

/-- A program is made with no value too large, or not made for the first that is: of the pin
modes, and then of the instructions along the order. -/
theorem program_checks (g : Graph) (order : List Nat) (m : SlotMap) :
    let live := g.liveness order
    Checks
      ((g.nodes.zipIdx.filter fun (n, i) => !n.synthetic && live[i]?.getD false).flatMap
          (fun (n, _) => n.pinLimits) ++
        (order.filter fun i => live[i]?.getD false).flatMap (g.limitsAt m))
      (g.program order m) :=
  (g.preamble_checks _).bind fun _ => (g.body_checks order m _).map fun _ => ⟨_, rfl⟩

theorem program_failsIn (g : Graph) (m : SlotMap) (order : List Nat) :
    FailsIn .codegen (g.program order m) := (g.program_checks order m).failsIn

end Graph

/-- A cycle is found by the order, and by no stage after it. -/
theorem compile_eq_cycle_iff {g : Graph} {unplaced : List String} :
    compile g = .error (.cycle unplaced) ↔
      g.normalize.graph.evaluationOrder = .error (.cycle unplaced) := by
  rw [compile_eq_error]
  constructor
  · rintro (h | ⟨order, -, h | ⟨m, -, h⟩⟩)
    · exact h
    · exact absurd (g.normalize.graph.allocate_failsIn order _ h) (by simp [CompileError.stage])
    · exact absurd (g.normalize.graph.program_failsIn m order _ h) (by simp [CompileError.stage])
  · exact .inl

end LogicWiring
