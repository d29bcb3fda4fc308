-- Which inputs are read as analog values. The search looks into each node
-- once: what it has seen feeds no analog node, and all that the seen nodes
-- feed is seen too or waits on the stack. Main statement:
-- `analog_reads_exact`, a search ends, and it finds what the author's wires
-- lead to.
import LogicWiring.Proofs.CycleRejection
import LogicWiring.Proofs.PinUse
import Mathlib

namespace LogicWiring

open Relation

namespace Graph

variable {g : Graph}

/-- The node is a range or a comparison. -/
def IsAnalog (g : Graph) (i : Nat) : Prop :=
  (∃ min max, g.kindAt i = some (.range min max)) ∨
    ∃ comparator, g.kindAt i = some (.compare comparator)

/-- One or more edges in a row lead from the node to an analog node. -/
def LeadsToAnalog (g : Graph) (i : Nat) : Prop := ∃ j, TransGen g.Feeds i j ∧ g.IsAnalog j

theorem isAnalogAt_iff {i : Nat} : g.isAnalogAt i = true ↔ g.IsAnalog i := by
  unfold isAnalogAt IsAnalog kindAt
  cases g.nodes[i]? with
  | none => simp
  | some n => cases hk : n.kind <;> simp [NodeKind.isAnalog, hk]

theorem leadsToAnalog_iff {i : Nat} :
    g.LeadsToAnalog i ↔ ∃ j, g.Feeds i j ∧ (g.IsAnalog j ∨ g.LeadsToAnalog j) := by
  constructor
  · rintro ⟨k, hik, hk⟩
    obtain ⟨j, hij, hjk⟩ := TransGen.head'_iff.1 hik
    rcases reflTransGen_iff_eq_or_transGen.1 hjk with rfl | hjk
    · exact ⟨k, hij, .inl hk⟩
    · exact ⟨j, hij, .inr ⟨k, hjk, hk⟩⟩
  · rintro ⟨j, hij, hj | ⟨k, hjk, hk⟩⟩
    · exact ⟨j, .single hij, hj⟩
    · exact ⟨k, .head hij hjk, hk⟩

/-! ## Searching -/

/-- A search from the nodes of a stack, the top first, and what it finds in the end. `seen` are
the nodes that it has looked into; it looks into none of them again. A node that feeds an analog
node ends the search. Of any other node all that it feeds goes onto the stack, in edge order. -/
inductive Searches (g : Graph) : List Nat → List Nat → Bool → Prop
  | exhausted {seen : List Nat} : Searches g seen [] false
  | again {seen rest : List Nat} {i : Nat} {found : Bool} : i ∈ seen →
    Searches g seen rest found → Searches g seen (i :: rest) found
  | found {seen rest : List Nat} {i j : Nat} : i ∉ seen → g.Feeds i j → g.IsAnalog j →
    Searches g seen (i :: rest) true
  | deeper {seen rest : List Nat} {i : Nat} {found : Bool} : i ∉ seen →
    (∀ j, g.Feeds i j → ¬ g.IsAnalog j) →
    Searches g (i :: seen) ((g.successors i).reverse ++ rest) found →
    Searches g seen (i :: rest) found

/-- The seen nodes feed no analog node, and what they feed is seen too or on the stack. -/
def Covers (g : Graph) (seen : Nat → Prop) (stack : List Nat) : Prop :=
  ∀ i j, seen i → g.Feeds i j → ¬ g.IsAnalog j ∧ (seen j ∨ j ∈ stack)

namespace Covers

variable {seen seen' : Nat → Prop} {stack rest next : List Nat} {i : Nat}

/-- A seen node leads to an analog node only through the stack. -/
theorem exists_leads (h : g.Covers seen stack) (hi : seen i) (hl : g.LeadsToAnalog i) :
    ∃ k ∈ stack, g.LeadsToAnalog k := by
  obtain ⟨a, hia, ha⟩ := hl
  induction hia using TransGen.head_induction_on with
  | single hf => exact absurd ha (h _ _ hi hf).1
  | head hf hca ih =>
    rcases (h _ _ hi hf).2 with hc | hc
    · exact ih hc
    · exact ⟨_, hc, a, hca, ha⟩

theorem again (h : g.Covers seen (i :: rest)) (hi : seen i) : g.Covers seen rest := by
  intro k j hk hf
  obtain ⟨hno, hj | hj⟩ := h k j hk hf
  · exact ⟨hno, .inl hj⟩
  · rcases List.mem_cons.1 hj with rfl | hj
    · exact ⟨hno, .inl hi⟩
    · exact ⟨hno, .inr hj⟩

theorem leads_again (h : g.Covers seen (i :: rest)) (hi : seen i) :
    (∃ k ∈ i :: rest, g.LeadsToAnalog k) ↔ ∃ k ∈ rest, g.LeadsToAnalog k := by
  constructor
  · rintro ⟨k, hk, hl⟩
    rcases List.mem_cons.1 hk with rfl | hk
    · exact (h.again hi).exists_leads hi hl
    · exact ⟨k, hk, hl⟩
  · rintro ⟨k, hk, hl⟩
    exact ⟨k, List.mem_cons_of_mem _ hk, hl⟩

theorem deeper (h : g.Covers seen (i :: rest)) (hno : ∀ j, g.Feeds i j → ¬ g.IsAnalog j)
    (hnext : ∀ j, j ∈ next ↔ g.Feeds i j) (hseen : ∀ k, seen' k ↔ seen k ∨ k = i) :
    g.Covers seen' (next ++ rest) := by
  intro k j hk hf
  rw [hseen, List.mem_append]
  rcases (hseen k).1 hk with hk | rfl
  · obtain ⟨hplain, hj | hj⟩ := h k j hk hf
    · exact ⟨hplain, .inl (.inl hj)⟩
    · rcases List.mem_cons.1 hj with rfl | hj
      · exact ⟨hplain, .inl (.inr rfl)⟩
      · exact ⟨hplain, .inr (.inr hj)⟩
  · exact ⟨hno j hf, .inr (.inl ((hnext j).2 hf))⟩

end Covers

theorem leads_deeper {rest next : List Nat} {i : Nat} (hno : ∀ j, g.Feeds i j → ¬ g.IsAnalog j)
    (hnext : ∀ j, j ∈ next ↔ g.Feeds i j) :
    (∃ k ∈ i :: rest, g.LeadsToAnalog k) ↔ ∃ k ∈ next ++ rest, g.LeadsToAnalog k := by
  constructor
  · rintro ⟨k, hk, hl⟩
    rcases List.mem_cons.1 hk with rfl | hk
    · obtain ⟨j, hf, hj | hj⟩ := leadsToAnalog_iff.1 hl
      · exact absurd hj (hno j hf)
      · exact ⟨j, List.mem_append_left _ ((hnext j).2 hf), hj⟩
    · exact ⟨k, List.mem_append_right _ hk, hl⟩
  · rintro ⟨k, hk, hl⟩
    rcases List.mem_append.1 hk with hk | hk
    · exact ⟨i, List.mem_cons_self, leadsToAnalog_iff.2 ⟨k, (hnext k).1 hk, .inr hl⟩⟩
    · exact ⟨k, List.mem_cons_of_mem _ hk, hl⟩

/-- A search finds something exactly if a node of its stack leads to an analog node. -/
theorem Searches.found_iff {seen stack : List Nat} {found : Bool} (h : g.Searches seen stack found)
    (hs : g.Covers (· ∈ seen) stack) : found = true ↔ ∃ i ∈ stack, g.LeadsToAnalog i := by
  induction h with
  | exhausted => simp
  | again hi _ ih => rw [hs.leads_again hi, ih (hs.again hi)]
  | found _ hf ha =>
    exact iff_of_true rfl ⟨_, List.mem_cons_self, leadsToAnalog_iff.2 ⟨_, hf, .inl ha⟩⟩
  | @deeper seen rest i found _ hno _ ih =>
    have hnext : ∀ j, j ∈ (g.successors i).reverse ↔ g.Feeds i j := fun j => by
      rw [List.mem_reverse, mem_successors]
    have hseen : ∀ k, k ∈ i :: seen ↔ k ∈ seen ∨ k = i := fun k => by
      rw [List.mem_cons, or_comm]
    rw [leads_deeper hno hnext, ih (hs.deeper hno hnext hseen)]

/-- A search ends: with each turn there is a node less to look into, or as many and the stack is
shorter. `unseen` holds the nodes that are left. -/
theorem exists_searches {unseen seen stack : List Nat}
    (hunseen : ∀ i < g.nodes.length, i ∉ seen → i ∈ unseen)
    (hstack : ∀ i ∈ stack, i < g.nodes.length) : ∃ found, g.Searches seen stack found := by
  induction hk : unseen.length using Nat.strong_induction_on generalizing unseen seen stack with
  | _ k ihk =>
    induction stack with
    | nil => exact ⟨false, .exhausted⟩
    | cons i rest ih =>
      obtain ⟨hi, hrest⟩ := List.forall_mem_cons.1 hstack
      by_cases hseen : i ∈ seen
      · obtain ⟨found, h⟩ := ih hrest
        exact ⟨found, .again hseen h⟩
      · by_cases hanalog : ∃ j, g.Feeds i j ∧ g.IsAnalog j
        · obtain ⟨j, hf, hj⟩ := hanalog
          exact ⟨true, .found hseen hf hj⟩
        · have hmem := hunseen i hi hseen
          have hless : (unseen.erase i).length < k := by
            rw [List.length_erase_of_mem hmem, hk]
            have := List.length_pos_of_mem hmem
            omega
          have hleft : ∀ j < g.nodes.length, j ∉ i :: seen → j ∈ unseen.erase i := by
            intro j hj hout
            rw [List.mem_cons, not_or] at hout
            exact (List.mem_erase_of_ne hout.1).2 (hunseen j hj hout.2)
          have hpushed : ∀ j ∈ (g.successors i).reverse ++ rest, j < g.nodes.length := by
            intro j hj
            rcases List.mem_append.1 hj with hj | hj
            · exact target_lt_of_feeds (mem_successors.1 (List.mem_reverse.1 hj))
            · exact hrest j hj
          obtain ⟨found, h⟩ := ihk _ hless hleft hpushed rfl
          exact ⟨found, .deeper hseen (fun j hf hj => hanalog ⟨j, hf, hj⟩) h⟩

theorem searchForAnalog_iff {unseen stack : List Nat} (hnd : unseen.Nodup)
    (hs : g.Covers (· ∉ unseen) stack) :
    g.searchForAnalog unseen stack = true ↔ ∃ i ∈ stack, g.LeadsToAnalog i := by
  fun_induction g.searchForAnalog unseen stack with
  | case1 => simp
  | case2 unseen i rest hmem next ih =>
    by_cases hanalog : ∃ j, g.Feeds i j ∧ g.IsAnalog j
    · obtain ⟨j, hf, hj⟩ := hanalog
      have hany : next.any g.isAnalogAt = true :=
        List.any_eq_true.2 ⟨j, mem_successors.2 hf, isAnalogAt_iff.2 hj⟩
      rw [hany, Bool.true_or]
      exact iff_of_true rfl ⟨i, List.mem_cons_self, leadsToAnalog_iff.2 ⟨j, hf, .inl hj⟩⟩
    · have hno : ∀ j, g.Feeds i j → ¬ g.IsAnalog j := fun j hf hj => hanalog ⟨j, hf, hj⟩
      have hany : next.any g.isAnalogAt = false := by
        rw [List.any_eq_false]
        intro j hj ha
        exact hno j (mem_successors.1 hj) (isAnalogAt_iff.1 ha)
      have hseen : ∀ k, k ∉ unseen.erase i ↔ k ∉ unseen ∨ k = i := by
        intro k
        rw [hnd.mem_erase_iff]
        tauto
      rw [hany, Bool.false_or, leads_deeper hno fun j => mem_successors]
      exact ih (hnd.erase i) (hs.deeper hno (fun j => mem_successors) hseen)
  | case3 unseen i rest hmem ih => rw [ih hnd (hs.again hmem), hs.leads_again hmem]

theorem feedsAnalog_iff {i : Nat} : g.feedsAnalog i = true ↔ g.LeadsToAnalog i := by
  unfold feedsAnalog
  rw [searchForAnalog_iff List.nodup_range]
  · simp
  · intro k j hk hf
    exact absurd (List.mem_range.2 (source_lt_of_feeds hf)) hk

/-- The search that is made, and the order of the stack, come to the same. -/
theorem searches_iff {i : Nat} (hi : i < g.nodes.length) {found : Bool} :
    g.Searches [] [i] found ↔ g.feedsAnalog i = found := by
  have hresult : ∀ {found : Bool}, g.Searches [] [i] found → g.feedsAnalog i = found := by
    intro found h
    rw [Bool.eq_iff_iff, feedsAnalog_iff, h.found_iff fun k j hk => absurd hk (by simp)]
    simp
  constructor
  · exact hresult
  · rintro rfl
    have hunseen : ∀ j < g.nodes.length, j ∉ [] → j ∈ List.range g.nodes.length :=
      fun j hj _ => List.mem_range.2 hj
    obtain ⟨found, h⟩ := exists_searches hunseen (List.forall_mem_singleton.2 hi)
    rwa [hresult h]

/-! ## The normalized graph -/

theorem kindAt_normalize {i : Nat} (hi : i < g.nodes.length) :
    g.normalize.graph.kindAt i = g.kindAt i := by
  have hn : g.nodes[i]? = some g.nodes[i] := List.getElem?_eq_getElem hi
  rw [kindAt_of_getElem? hn, kindAt_of_getElem? (getElem?_normalize hn)]

theorem idAt_normalize {i : Nat} (hi : i < g.nodes.length) :
    g.normalize.graph.idAt i = g.idAt i := by
  have hn : g.nodes[i]? = some g.nodes[i] := List.getElem?_eq_getElem hi
  simp [idAt, hn, getElem?_normalize hn]

/-- Behind the nodes of the author come only gates. -/
theorem lt_of_kindAt_normalize {i : Nat} {kind : NodeKind}
    (h : g.normalize.graph.kindAt i = some kind) (hgate : ∀ op fanIn, kind ≠ .gate op fanIn) :
    i < g.nodes.length := by
  by_contra hi
  have hnodes : g.normalize.graph.nodes = g.nodes ++ g.merges.map Merge.toNode := rfl
  rw [kindAt, hnodes, List.getElem?_append_right (Nat.le_of_not_lt hi), List.getElem?_map,
    Option.map_map] at h
  obtain ⟨m, -, hm⟩ := Option.map_eq_some_iff.1 h
  exact hgate .or _ hm.symm

theorem lt_of_isAnalog {i : Nat} (h : g.IsAnalog i) : i < g.nodes.length := by
  rcases h with ⟨min, max, hk⟩ | ⟨comparator, hk⟩
  · exact lt_of_kindAt hk
  · exact lt_of_kindAt hk

theorem isAnalog_normalize {i : Nat} : g.normalize.graph.IsAnalog i ↔ g.IsAnalog i := by
  have hsame : i < g.nodes.length → (g.normalize.graph.IsAnalog i ↔ g.IsAnalog i) := by
    intro hi
    rw [IsAnalog, kindAt_normalize hi, IsAnalog]
  constructor
  · intro h
    refine (hsame ?_).1 h
    rcases h with ⟨min, max, hk⟩ | ⟨comparator, hk⟩
    · exact lt_of_kindAt_normalize hk (by simp)
    · exact lt_of_kindAt_normalize hk (by simp)
  · intro h
    exact (hsame (lt_of_isAnalog h)).2 h

theorem leadsToAnalog_normalize {i : Nat} (hi : i < g.nodes.length) :
    g.normalize.graph.LeadsToAnalog i ↔ g.LeadsToAnalog i := by
  have hlength : g.nodes.length ≤ g.normalize.graph.nodes.length := by simp [normalize]
  unfold LeadsToAnalog
  refine exists_congr fun j => ?_
  rw [isAnalog_normalize]
  refine and_congr_left fun hanalog => ?_
  have hj := lt_of_isAnalog hanalog
  rw [transGen_feeds_iff (hi.trans_le hlength) (hj.trans_le hlength), transGen_feeds_iff hi hj,
    idAt_normalize hi, idAt_normalize hj]
  exact reaches_normalize_iff (idAt_mem_ids hi) (idAt_mem_ids hj)

/-! ## Reads -/

theorem exists_slot_of_input {m : SlotMap} {i : Nat} {pin : Option UInt32} (hs : m.Serves g)
    (hk : g.kindAt i = some (.input pin)) : ∃ s, m.get i = some s := by
  obtain ⟨n, hn, hkind⟩ := Option.map_eq_some_iff.1 hk
  refine hs.exists_slot (lt_of_kindAt hk) ?_
  rw [isSinkAt_of_getElem? hn, hkind]
  rfl

theorem emission_input {m : SlotMap} {i : Nat} {pin : UInt32} {s : UInt8}
    (hk : g.kindAt i = some (.input (some pin))) (hget : m.get i = some s) :
    g.emission m i = some ⟨g.opcodeAt i (.input (some pin)), [pin.toUInt8, s]⟩ := by
  simp [emission, hk, hget, layOut, readSlots, NodeKind.operandBytes, NodeKind.isSink]

namespace Compiled

variable {p : Program} {order : List Nat} {m : SlotMap} {modes body : List Instruction}
  {i : Nat} {pin : UInt32} {s : UInt8} {op : Opcode}

/-- The slot of a live input tells its read apart from those of the other inputs. -/
theorem read_mem_body_iff (hc : g.Compiled p order m modes body)
    (hk : g.normalize.graph.kindAt i = some (.input (some pin)))
    (hl : g.normalize.graph.Live i) (hget : m.get i = some s) (hop : op.touches = some .input) :
    ⟨op, [pin.toUInt8, s]⟩ ∈ body ↔
      op = g.normalize.graph.opcodeAt i (.input (some pin)) := by
  have hemission := emission_input hk hget
  constructor
  · intro h
    obtain ⟨j, -, hlive, hres⟩ := mem_body hc.body_eq h
    have hout := out_of_instruction hc.serves ((hc.live_iff j).1 hlive) hres
    have hwrites : (Instruction.access ⟨op, [pin.toUInt8, s]⟩).out = some s := by
      cases op with
      | readPin | readAnalogPin => rfl
      | _ => cases hop
    rw [hwrites] at hout
    cases hc.serves.inj j i s hout.symm hget
    have hins := (instruction_eq_ok hres).1
    rw [hemission] at hins
    cases hins
    rfl
  · rintro rfl
    obtain ⟨res, hres, hmem⟩ := instruction_of_mem_order hc.body_eq
      ((hc.isOrder.mem_iff i).2 hl.lt_length) ((hc.live_iff i).2 hl)
    exact hmem _ ((instruction_eq_ok hres).1.trans hemission)

/-- Only live inputs are read. -/
theorem input_of_read (hc : g.Compiled p order m modes body) {ins : Instruction}
    (hins : ins ∈ body) (hop : ins.opcode.touches = some .input) :
    ∃ i pin s, g.kindAt i = some (.input (some pin)) ∧ g.normalize.graph.Live i ∧
      m.get i = some s ∧ ins.operands = [pin.toUInt8, s] := by
  obtain ⟨i, -, hlive, hres⟩ := mem_body hc.body_eq hins
  have hl := (hc.live_iff i).1 hlive
  have hemission := (instruction_eq_ok hres).1.symm
  obtain ⟨kind, out, hk, hlaid⟩ := layOut_of_emission hemission
  obtain ⟨slots, -, rfl⟩ := Option.map_eq_some_iff.1 hlaid
  rw [touches_opcodeAt] at hop
  cases kind with
  | input pin =>
    have hi := lt_of_kindAt_normalize hk (by simp)
    cases pin with
    | none => exact absurd hk hl.ne_pinless
    | some pin =>
      obtain ⟨s, hget⟩ := exists_slot_of_input hc.serves hk
      rw [emission_input hk hget] at hemission
      have hoperands := congrArg Instruction.operands (Option.some.inj hemission)
      exact ⟨i, pin, s, kindAt_normalize hi ▸ hk, hl, hget, hoperands.symm⟩
  | _ => cases hop

end Compiled

end Graph

/-- Every search of a graph ends, cycles or not, and it finds an analog node exactly if the edges
lead to one. So a compiled program reads a live input as an analog value exactly if the wires of
the author lead from it to a range or a comparison, through whatever nodes; else it reads one
bit. It reads no other pin. -/
theorem analog_reads_exact (g : Graph) :
    (∀ i < g.nodes.length,
      (∀ found, g.Searches [] [i] found ↔ g.feedsAnalog i = found) ∧
      (g.feedsAnalog i = true ↔ g.LeadsToAnalog i)) ∧
    ∀ p, compile g = .ok p → ∃ (order : List Nat) (m : SlotMap) (body : List Instruction),
      let n := g.normalize.graph
      n.evaluationOrder = .ok order ∧ n.allocate order = .ok m ∧
      decode (p.bytes.drop p.bodyOffset) = .ok (placeFrom 0 body) ∧
      (∀ i pin, g.kindAt i = some (.input (some pin)) → n.Live i → ∃ s, m.get i = some s ∧
        (⟨.readAnalogPin, [pin.toUInt8, s]⟩ ∈ body ↔ g.LeadsToAnalog i) ∧
        (⟨.readPin, [pin.toUInt8, s]⟩ ∈ body ↔ ¬ g.LeadsToAnalog i)) ∧
      ∀ ins ∈ body, ins.opcode.touches = some .input → ∃ i pin s,
        g.kindAt i = some (.input (some pin)) ∧ n.Live i ∧ m.get i = some s ∧
          ins.operands = [pin.toUInt8, s] := by
  refine ⟨fun i hi => ⟨fun found => Graph.searches_iff hi, Graph.feedsAnalog_iff⟩, fun p hp => ?_⟩
  obtain ⟨order, m, modes, body, hc⟩ := compiled_of_compile hp
  refine ⟨order, m, body, hc.order_eq, hc.slots_eq, hc.decode_body, fun i pin hk hl => ?_,
    fun ins hins hop => hc.input_of_read hins hop⟩
  have hi := Graph.lt_of_kindAt hk
  have hkn := (Graph.kindAt_normalize hi).trans hk
  obtain ⟨s, hget⟩ := Graph.exists_slot_of_input hc.serves hkn
  have hop : g.normalize.graph.opcodeAt i (.input (some pin)) =
      if g.normalize.graph.feedsAnalog i then .readAnalogPin else .readPin := rfl
  have hfeeds : g.normalize.graph.feedsAnalog i = true ↔ g.LeadsToAnalog i :=
    Graph.feedsAnalog_iff.trans (Graph.leadsToAnalog_normalize hi)
  refine ⟨s, hget, ?_, ?_⟩
  · rw [hc.read_mem_body_iff hkn hl hget rfl, hop, ← hfeeds]
    cases g.normalize.graph.feedsAnalog i <;> simp
  · rw [hc.read_mem_body_iff hkn hl hget rfl, hop, ← hfeeds]
    cases g.normalize.graph.feedsAnalog i <;> simp

/-- Two inputs meet in front of an output, and behind it comes a range that is dead. A third input
drives an output of its own. -/
def probed : Graph where
  nodes := [
    { id := "a", kind := .input (some 14) }, { id := "b", kind := .input (some 3) },
    { id := "c", kind := .input (some 15) }, { id := "o", kind := .output (some 8) },
    { id := "r", kind := .range 100 900 }, { id := "u", kind := .output none },
    { id := "q", kind := .output (some 9) }]
  edges := [
    { source := "c", target := "o" }, { source := "a", target := "o" },
    { source := "o", target := "r" }, { source := "r", target := "u" },
    { source := "b", target := "q" }]
  ids_nodup := by decide
  ends_known := by decide

/-- The inputs joined in front of `o`. -/
def probedJoined : Graph where
  nodes := probed.nodes ++ [{ id := "o.in.or", kind := .gate .or 2, synthetic := true }]
  edges := [
    { source := "o", target := "r" }, { source := "r", target := "u" },
    { source := "b", target := "q" },
    { source := "a", target := "o.in.or", targetHandle := "in0" },
    { source := "c", target := "o.in.or", targetHandle := "in1" },
    { source := "o.in.or", target := "o" }]
  ids_nodup := by decide
  ends_known := by decide

def probedSlots : SlotMap where
  slots := [some 0, some 1, some 2, none, some 4, none, none, some 3]
  count := 5

def probedProgram : Program where
  bytes := [1, 14, 1, 3, 1, 15, 2, 8, 2, 9,
    5, 14, 0, 3, 3, 1, 5, 15, 2, 4, 9, 1, 12, 2, 0, 2, 3, 4, 8, 3]
  slotCount := 5
  bodyOffset := 10

theorem normalize_probed : probed.normalize.graph = probedJoined :=
  Graph.ext_nodes_edges (by cbv) (by cbv)

theorem order_probed : probedJoined.evaluationOrder = .ok [0, 1, 2, 6, 7, 3, 4, 5] := by cbv

theorem slots_probed : probedJoined.allocate [0, 1, 2, 6, 7, 3, 4, 5] = .ok probedSlots := by cbv

theorem live_probed : probedJoined.liveness [0, 1, 2, 6, 7, 3, 4, 5] =
    [true, true, true, true, false, false, true, true] := by decide

theorem compile_probed : compile probed = .ok probedProgram := by
  rw [compile_of_stages normalize_probed order_probed slots_probed, Graph.program, live_probed]
  cbv

/-- The first input is read as an analog value, the second one as a bit. -/
theorem probed_reads_exact :
    compile probed = .ok probedProgram ∧
    (probed.Searches [] [0] true ∧ probed.LeadsToAnalog 0) ∧
    (probed.Searches [] [1] false ∧ ¬ probed.LeadsToAnalog 1) ∧
    ∃ body : List Instruction,
      decode (probedProgram.bytes.drop probedProgram.bodyOffset) = .ok (placeFrom 0 body) ∧
      (⟨.readAnalogPin, [14, 0]⟩ ∈ body ∧ ⟨.readPin, [14, 0]⟩ ∉ body) ∧
      (⟨.readAnalogPin, [3, 1]⟩ ∉ body ∧ ⟨.readPin, [3, 1]⟩ ∈ body) ∧
      ∃ i pin s, probed.kindAt i = some (.input (some pin)) ∧ [14, 0] = [pin.toUInt8, s] := by
  obtain ⟨hsearch, hcompile⟩ := analog_reads_exact probed
  obtain ⟨hends, hleads⟩ := hsearch 0 (by decide)
  obtain ⟨hends', hleads'⟩ := hsearch 1 (by decide)
  have hfeeds : probed.feedsAnalog 0 = true := by cbv
  have hfeeds' : probed.feedsAnalog 1 = false := by cbv
  have hlead : probed.LeadsToAnalog 0 := hleads.1 hfeeds
  have hlead' : ¬ probed.LeadsToAnalog 1 := hleads'.not.1 (by simp [hfeeds'])
  obtain ⟨order, m, body, ho, hm, hbody, hreads, honly⟩ := hcompile _ compile_probed
  rw [normalize_probed] at ho hm hreads
  cases order_probed.symm.trans ho
  cases slots_probed.symm.trans hm
  have hlive : ∀ i, probedJoined.Live i ↔ _ := fun i =>
    (Graph.liveness_iff (Graph.isOrder_of_evaluationOrder order_probed) i).symm
  obtain ⟨s, hs, hanalog, hbit⟩ := hreads 0 14 rfl ((hlive 0).2 (by rw [live_probed]; rfl))
  obtain ⟨s', hs', hanalog', hbit'⟩ := hreads 1 3 rfl ((hlive 1).2 (by rw [live_probed]; rfl))
  cases hs
  cases hs'
  have hmem : ⟨.readAnalogPin, [14, 0]⟩ ∈ body := hanalog.2 hlead
  obtain ⟨i, pin, s, hk, -, -, hoperands⟩ := honly _ hmem rfl
  exact ⟨compile_probed, ⟨(hends true).2 hfeeds, hlead⟩, ⟨(hends' false).2 hfeeds', hlead'⟩,
    body, hbody, ⟨hmem, fun h => hbit.1 h hlead⟩, ⟨fun h => hlead' (hanalog'.1 h), hbit'.2 hlead'⟩,
    i, pin, s, hk, hoperands⟩

end LogicWiring
