-- Which graphs compile, and what is reported of the others. A graph without a
-- cycle and with few enough slots fails only for a value of a live node that
-- has all the wires it needs. Main statement: `compile_failures_exact`.
import LogicWiring.Proofs.CycleRejection
import LogicWiring.Proofs.SlotUse

namespace LogicWiring

namespace Graph

variable {g : Graph} {m : SlotMap} {order : List Nat} {i : Nat}

/-! ## Values of a node -/

instance (g : Graph) (i : Nat) (kind : NodeKind) : Decidable (g.Underspecified i kind) :=
  match kind with
  | .input _ | .output _ | .pulse _ _ => inferInstanceAs (Decidable False)
  | .gate _ _ => inferInstanceAs (Decidable ((g.producers i).length < 2))
  | .not | .toggle _ | .range _ _ => inferInstanceAs (Decidable (g.producers i = []))
  | .latch _ => inferInstanceAs (Decidable (g.driver i "set" = none ∨ g.driver i "reset" = none))
  | .compare _ => inferInstanceAs (Decidable (g.driver i "a" = none ∨ g.driver i "b" = none))
  | .shift _ _ => inferInstanceAs (Decidable (g.driver i "data" = none ∨ g.driver i "clock" = none))

/-- The values of a node that have to fit. A node with wires missing has none. -/
def limitsOf (g : Graph) (i : Nat) : List Limit :=
  (g.nodes[i]?).elim [] fun n =>
    if g.Underspecified i n.kind then [] else n.limits (g.producers i).length

theorem mem_limitsOf {l : Limit} : l ∈ g.limitsOf i ↔ ∃ n, g.nodes[i]? = some n ∧
    ¬ g.Underspecified i n.kind ∧ l ∈ n.limits (g.producers i).length := by
  unfold limitsOf
  cases hn : g.nodes[i]? with
  | none => simp
  | some n =>
    by_cases h : g.Underspecified i n.kind <;> simp [h]

theorem isComplete_iff (hs : m.Serves g) (i : Nat) (kind : NodeKind) :
    g.isComplete m i kind = true ↔ ¬ g.Underspecified i kind := by
  have hslots : (g.driverSlots m i).length = (g.producers i).length := by
    rw [driverSlots_eq hs, List.length_map]
  have hhandle : ∀ handle, (g.handleSlot m i handle).isSome = (g.driver i handle).isSome := by
    intro handle
    rw [handleSlot_eq hs, Option.isSome_map]
  cases kind with
  | input _ | output _ | pulse _ _ => simp [isComplete, Underspecified]
  | gate op fanIn => simp [isComplete, Underspecified, hslots, Nat.succ_le_iff]
  | not | toggle _ | range _ _ =>
    simp [isComplete, Underspecified, hslots, Nat.one_le_iff_ne_zero]
  | latch _ | compare _ | shift _ _ =>
    simp [isComplete, Underspecified, hhandle, Option.isSome_iff_ne_none]

/-- With a slot for each producer, a node has an instruction unless wires are missing. -/
theorem isSome_emission_iff {n : Node} (hs : m.Serves g) (hn : g.nodes[i]? = some n) :
    (g.emission m i).isSome = true ↔ ¬ g.Underspecified i n.kind := by
  have hslot : (n.kind.isSink || (m.get i).isSome) = true := by
    by_cases hsink : n.kind.isSink = true
    · rw [hsink, Bool.true_or]
    · have hproducer : g.isSinkAt i = false := by simpa [isSinkAt_of_getElem? hn] using hsink
      rw [(hs.isSome_iff i).2 ⟨(List.getElem?_eq_some_iff.1 hn).1, hproducer⟩, Bool.or_true]
  rw [isSome_emission, kindAt_of_getElem? hn, Option.any_some, hslot, Bool.true_and,
    isComplete_iff hs]

theorem limitsAt_eq (hs : m.Serves g) (i : Nat) : g.limitsAt m i = g.limitsOf i := by
  unfold limitsAt limitsOf
  cases hn : g.nodes[i]? with
  | none => rfl
  | some n =>
    simp only [Option.elim_some, isSome_emission_iff hs hn, driverSlots_eq hs, List.length_map,
      ite_not]

/-- A pin is one of the values of its node. -/
theorem pinLimits_subset {n : Node} (hn : g.nodes[i]? = some n) : n.pinLimits ⊆ g.limitsOf i := by
  intro l hl
  refine mem_limitsOf.2 ⟨n, hn, ?_⟩
  unfold Node.limits
  cases hk : n.kind with
  | input pin | output pin => exact ⟨fun h => h, hl⟩
  | _ => simp [Node.pinLimits, hk, NodeKind.pin] at hl

/-! ## Slots -/

/-- Each shared handle asks for the slot of its merge. -/
theorem producerCount_normalize (g : Graph) :
    g.normalize.graph.producerCount = g.producerCount + g.sharedGroups.length := by
  have hmerges : (g.merges.map Merge.toNode).countP (fun n => !n.kind.isSink) = g.merges.length := by
    rw [List.countP_map, List.countP_eq_length]
    exact fun _ _ => rfl
  unfold producerCount
  rw [← g.merges_join.length_eq, ← hmerges]
  exact List.countP_append

theorem allocate_of_le (order : List Nat) (h : g.producerCount ≤ 255) :
    ∃ m, g.allocate order = .ok m :=
  ⟨_, if_neg (Nat.not_lt.2 h)⟩

theorem allocate_eq_overflow_iff {slots max : Nat} :
    g.allocate order = .error (.slotOverflow slots max) ↔
      255 < g.producerCount ∧ slots = g.producerCount ∧ max = 255 := by
  rw [allocate_eq_error_iff, CompileError.slotOverflow.injEq]
  rfl

/-! ## All values of a graph -/

/-- No node that the author drew is left out of the pin modes. -/
theorem zipIdx_drawn (hdrawn : ∀ node ∈ g.nodes, node.synthetic = false) (live : List Bool) :
    (g.normalize.graph.nodes.zipIdx.filter fun (node, i) =>
      !node.synthetic && live[i]?.getD false) =
      g.nodes.zipIdx.filter fun (_, i) => live[i]?.getD false := by
  have hnodes : g.normalize.graph.nodes = g.nodes ++ g.merges.map Merge.toNode := rfl
  rw [hnodes, List.zipIdx_append, List.filter_append]
  have hmerges : ((g.merges.map Merge.toNode).zipIdx (0 + g.nodes.length)).filter
      (fun (node, i) => !node.synthetic && live[i]?.getD false) = [] := by
    rw [List.filter_eq_nil_iff]
    rintro ⟨node, i⟩ hmem
    obtain ⟨merge, -, rfl⟩ := List.mem_map.1 (List.fst_mem_of_mem_zipIdx hmem)
    simp [Merge.toNode]
  rw [hmerges, List.append_nil]
  apply List.filter_congr
  rintro ⟨node, i⟩ hmem
  simp [hdrawn node (List.fst_mem_of_mem_zipIdx hmem)]

/-- The values of a graph in the order in which they are checked: the pins of the live nodes of
the author, in node order, and then all values of the live nodes along an order. -/
def limitsAlong (g : Graph) (order : List Nat) : List Limit :=
  let n := g.normalize.graph
  let live := n.liveness order
  (g.nodes.zipIdx.filter fun (_, i) => live[i]?.getD false).flatMap
      (fun (node, _) => node.pinLimits) ++
    (order.filter fun i => live[i]?.getD false).flatMap n.limitsOf

/-- The node at this position is live and has all the wires it needs, so that it has an
instruction. -/
def Emits (g : Graph) (i : Nat) (node : Node) : Prop :=
  g.nodes[i]? = some node ∧ g.Live i ∧ ¬ g.Underspecified i node.kind

theorem mem_limitsAlong (ho : g.normalize.graph.IsOrder order) {l : Limit} :
    l ∈ g.limitsAlong order ↔ ∃ i node, g.normalize.graph.Emits i node ∧
      l ∈ node.limits (g.normalize.graph.producers i).length := by
  have hvalue : (∃ i node, g.normalize.graph.Emits i node ∧
      l ∈ node.limits (g.normalize.graph.producers i).length) ↔
      ∃ i, g.normalize.graph.Live i ∧ l ∈ g.normalize.graph.limitsOf i := by
    simp only [Emits, mem_limitsOf]
    constructor
    · rintro ⟨i, node, ⟨hn, hl, hwired⟩, hmem⟩
      exact ⟨i, hl, node, hn, hwired, hmem⟩
    · rintro ⟨i, hl, node, hn, hwired, hmem⟩
      exact ⟨i, node, ⟨hn, hl, hwired⟩, hmem⟩
  have hlive := fun i => liveness_iff ho i
  rw [hvalue, limitsAlong, List.mem_append, List.mem_flatMap, List.mem_flatMap]
  constructor
  · rintro (⟨⟨node, i⟩, hmem, hl⟩ | ⟨i, hmem, hl⟩)
    · obtain ⟨hnode, hi⟩ := List.mem_filter.1 hmem
      have hn := getElem?_normalize (List.mem_zipIdx_iff_getElem?.1 hnode)
      exact ⟨i, (hlive i).1 hi, pinLimits_subset hn hl⟩
    · obtain ⟨-, hi⟩ := List.mem_filter.1 hmem
      exact ⟨i, (hlive i).1 hi, hl⟩
  · rintro ⟨i, hi, hl⟩
    have hmem : i ∈ order := (ho.mem_iff i).2 hi.lt_length
    exact .inr ⟨i, List.mem_filter.2 ⟨hmem, (hlive i).2 hi⟩, hl⟩

end Graph

/-! ## Compiling -/

theorem compile_eq_overflow_iff {g : Graph} (h : ¬ g.Cyclic) {slots max : Nat} :
    compile g = .error (.slotOverflow slots max) ↔
      255 < g.normalize.graph.producerCount ∧ slots = g.normalize.graph.producerCount ∧
        max = 255 := by
  obtain ⟨order, ho⟩ := Graph.exists_order_normalize_iff.2 h
  have hslots := @Graph.allocate_eq_overflow_iff g.normalize.graph order slots max
  rw [compile_eq_error, ← hslots]
  constructor
  · rintro (h | ⟨order', ho', h | ⟨m, -, h⟩⟩)
    · simp [ho] at h
    · cases ho.symm.trans ho'
      exact h
    · exact absurd (Graph.program_failsIn _ m order' _ h) (by simp [CompileError.stage])
  · intro h
    exact .inr ⟨order, ho, .inl h⟩

/-- Once the nodes have an order and slots, compiling fails for the first value that does not
fit, and succeeds if all do. -/
theorem compile_checks {g : Graph} {order : List Nat}
    (hdrawn : ∀ node ∈ g.nodes, node.synthetic = false)
    (ho : g.normalize.graph.evaluationOrder = .ok order)
    (hcount : g.normalize.graph.producerCount ≤ 255) :
    Checks (g.limitsAlong order) (compile g) := by
  obtain ⟨m, hm⟩ := Graph.allocate_of_le order hcount
  have hs := Graph.serves_of_allocate (Graph.isOrder_of_evaluationOrder ho) hm
  rw [compile_of_stages rfl ho hm, Graph.limitsAlong, ← Graph.zipIdx_drawn hdrawn,
    ← funext (Graph.limitsAt_eq hs)]
  exact g.normalize.graph.program_checks order m

/-- What fails, and what is reported. A cycle comes first, then the number of slots, then the
values of the nodes; of these the first one that does not fit is reported. Only a node that is
live and has all the wires it needs counts: the settings of the others can be anything. -/
theorem compile_failures_exact (g : Graph) (hdrawn : ∀ node ∈ g.nodes, node.synthetic = false) :
    let n := g.normalize.graph
    let count := g.producerCount + g.sharedGroups.length
    ((∃ unplaced, compile g = .error (.cycle unplaced)) ↔ g.Cyclic) ∧
    (¬ g.Cyclic → ∀ slots max, compile g = .error (.slotOverflow slots max) ↔
      255 < count ∧ slots = count ∧ max = 255) ∧
    (¬ g.Cyclic → count ≤ 255 →
      (∃ order, n.evaluationOrder = .ok order ∧ ∀ l : Limit,
        compile g = .error l.error ↔ (g.limitsAlong order).find? Limit.exceeded = some l) ∧
      ((∃ l : Limit, compile g = .error l.error) ↔ ∃ i node, n.Emits i node ∧
        ∃ l ∈ node.limits (n.producers i).length, l.max < l.value) ∧
      ((∃ p, compile g = .ok p) ↔ ∀ i node, n.Emits i node →
        ∀ l ∈ node.limits (n.producers i).length, l.value ≤ l.max)) := by
  intro n count
  have hcount : n.producerCount = count := g.producerCount_normalize
  refine ⟨?_, fun hacyclic slots max => ?_, fun hacyclic hle => ?_⟩
  · simp only [compile_eq_cycle_iff, Graph.evaluationOrder_eq_cycle_iff, exists_and_left,
      exists_eq, and_true]
    exact Graph.cyclic_normalize_iff
  · rw [← hcount]
    exact compile_eq_overflow_iff hacyclic
  · obtain ⟨order, ho⟩ := Graph.exists_order (mt Graph.cyclic_normalize_iff.1 hacyclic)
    have hchecks := compile_checks hdrawn ho (hcount ▸ hle)
    have hmem : ∀ l, l ∈ g.limitsAlong order ↔ ∃ i node, n.Emits i node ∧
        l ∈ node.limits (n.producers i).length := fun l =>
      Graph.mem_limitsAlong (Graph.isOrder_of_evaluationOrder ho)
    refine ⟨⟨order, ho, fun l => hchecks.eq_limit_error_iff⟩, ?_, ?_⟩
    · rw [hchecks.exists_error_iff]
      constructor
      · rintro ⟨l, hl, hlt⟩
        obtain ⟨i, node, hemits, hl⟩ := (hmem l).1 hl
        exact ⟨i, node, hemits, l, hl, hlt⟩
      · rintro ⟨i, node, hemits, l, hl, hlt⟩
        exact ⟨l, (hmem l).2 ⟨i, node, hemits, hl⟩, hlt⟩
    · rw [hchecks.eq_ok_iff]
      constructor
      · intro h i node hemits l hl
        exact h l ((hmem l).2 ⟨i, node, hemits, hl⟩)
      · intro h l hl
        obtain ⟨i, node, hemits, hl⟩ := (hmem l).1 hl
        exact h i node hemits l hl

/-- Too large are the pin of an input that only feeds an output without a pin, a bound of a range
that nothing is wired to, the interval of a pulse, and the pin of the last output. -/
def misfits : Graph where
  nodes := [
    { id := "a", kind := .input (some 999) }, { id := "x", kind := .output none },
    { id := "r", kind := .range 70000 5 }, { id := "t", kind := .pulse 5 70000 },
    { id := "o", kind := .output (some 300) }]
  edges := [{ source := "a", target := "x" }, { source := "t", target := "o" }]
  ids_nodup := by decide
  ends_known := by decide

theorem compile_misfits : compile misfits = .error (.operandRange "o" .pin 300 255) := by
  have hsame : misfits.normalize.graph = misfits :=
    Graph.ext_nodes_edges (by cbv) (by cbv)
  have hlive : misfits.liveness [0, 2, 3, 1, 4] = [false, false, true, true, true] := by decide
  have ho : misfits.evaluationOrder = .ok [0, 2, 3, 1, 4] := by cbv
  have hm : misfits.allocate [0, 2, 3, 1, 4] =
      .ok { slots := [some 0, none, some 1, some 2, none], count := 3 } := by cbv
  rw [compile_of_stages hsame ho hm, Graph.program, hlive]
  cbv

/-- The pin of the output is the first value that counts. -/
theorem misfits_first_offender :
    (∀ node ∈ misfits.nodes, node.synthetic = false) ∧ ¬ misfits.Cyclic ∧
    misfits.producerCount + misfits.sharedGroups.length ≤ 255 ∧
    compile misfits = .error (Limit.error ⟨"o", .pin, 300, 255⟩) ∧
    ∃ order, misfits.normalize.graph.evaluationOrder = .ok order ∧
      (misfits.limitsAlong order).find? Limit.exceeded = some ⟨"o", .pin, 300, 255⟩ := by
  have hdrawn : ∀ node ∈ misfits.nodes, node.synthetic = false := by decide
  obtain ⟨hcycle, -, hvalues⟩ := compile_failures_exact misfits hdrawn
  have hacyclic : ¬ misfits.Cyclic := by
    rw [← hcycle]
    simp [compile_misfits]
  have hcount : misfits.producerCount + misfits.sharedGroups.length ≤ 255 := by cbv
  obtain ⟨⟨order, ho, hfirst⟩, -⟩ := hvalues hacyclic hcount
  exact ⟨hdrawn, hacyclic, hcount, compile_misfits, order, ho, (hfirst _).1 compile_misfits⟩

end LogicWiring
