-- Which nodes are live, as a fact about the wiring alone. Main statement: the
-- verdicts found from the end of an order are exactly the live nodes, so they
-- do not depend on the order.
import LogicWiring.Liveness
import LogicWiring.Proofs.Placing

namespace LogicWiring.Graph

variable {g : Graph}

/-- The node gives a value on: it is no output, and no input without a pin. -/
def Relays (g : Graph) (i : Nat) : Prop :=
  ∃ kind, g.kindAt i = some kind ∧ kind.isSink = false ∧ kind ≠ .input none

/-- The value of the node can reach a pin, or a node that nothing reads. -/
inductive Live (g : Graph) : Nat → Prop
  | routed {i : Nat} {pin : UInt32} : g.kindAt i = some (.output (some pin)) → Live g i
  | unread {i : Nat} : g.Relays i → g.successors i = [] → Live g i
  | read {i j : Nat} : g.Relays i → g.Feeds i j → Live g j → Live g i

theorem live_iff {i : Nat} : g.Live i ↔ (∃ pin, g.kindAt i = some (.output (some pin))) ∨
    g.Relays i ∧ (g.successors i = [] ∨ ∃ j, g.Feeds i j ∧ g.Live j) := by
  constructor
  · rintro (h | ⟨h, hs⟩ | ⟨h, hf, hj⟩)
    · exact .inl ⟨_, h⟩
    · exact .inr ⟨h, .inl hs⟩
    · exact .inr ⟨h, .inr ⟨_, hf, hj⟩⟩
  · rintro (⟨pin, h⟩ | ⟨h, hs | ⟨j, hf, hj⟩⟩)
    · exact .routed h
    · exact .unread h hs
    · exact .read h hf hj

theorem lt_of_kindAt {i : Nat} {kind : NodeKind} (h : g.kindAt i = some kind) :
    i < g.nodes.length := by
  obtain ⟨n, hn, -⟩ := Option.map_eq_some_iff.1 h
  exact (List.getElem?_eq_some_iff.1 hn).1

theorem Live.lt_length {i : Nat} (h : g.Live i) : i < g.nodes.length := by
  rcases live_iff.1 h with ⟨pin, hk⟩ | ⟨⟨kind, hk, -⟩, -⟩
  · exact lt_of_kindAt hk
  · exact lt_of_kindAt hk

theorem Live.exists_node {i : Nat} (h : g.Live i) : ∃ n, g.nodes[i]? = some n :=
  ⟨_, List.getElem?_eq_getElem h.lt_length⟩

theorem Live.ne_pinless {i : Nat} (h : g.Live i) : g.kindAt i ≠ some (.input none) := by
  rcases live_iff.1 h with ⟨pin, hk⟩ | ⟨⟨kind, hk, -, hne⟩, -⟩
  · simp [hk]
  · simp [hk, hne]

theorem Live.ne_unrouted {i : Nat} (h : g.Live i) : g.kindAt i ≠ some (.output none) := by
  rcases live_iff.1 h with ⟨pin, hk⟩ | ⟨⟨kind, hk, hsink, -⟩, -⟩
  · simp [hk]
  · rintro hno
    cases hk.symm.trans hno
    cases hsink

/-- The verdict on a node is the rule of liveness, read off the verdicts on its readers. -/
theorem isLive_eq_true {live : List Bool} {i : Nat} :
    g.isLive live i = true ↔ (∃ pin, g.kindAt i = some (.output (some pin))) ∨
      g.Relays i ∧ (g.successors i = [] ∨ ∃ j, g.Feeds i j ∧ live[j]?.getD false = true) := by
  unfold isLive Relays
  rw [← kindAt]
  cases hk : g.kindAt i with
  | none => simp
  | some kind =>
    cases kind with
    | output pin => cases pin <;> simp [NodeKind.isSink]
    | input pin => cases pin <;> simp [NodeKind.isSink, mem_successors]
    | _ => simp [NodeKind.isSink, mem_successors]

theorem length_liveness (order : List Nat) : (g.liveness order).length = g.nodes.length := by
  unfold liveness
  induction order with
  | nil => simp
  | cons i rest ih => simp [ih]

/-- What is found behind a place of an order is right for the nodes behind that place. -/
theorem liveness_suffix {order before rest : List Nat} (ho : g.IsOrder order)
    (hs : order = before ++ rest) {i : Nat} (hi : i ∈ rest) :
    (g.liveness rest)[i]?.getD false = true ↔ g.Live i := by
  induction rest generalizing before i with
  | nil => simp at hi
  | cons k rest ih =>
    have hrest : order = (before ++ [k]) ++ rest := by simp [hs]
    have hcons : g.liveness (k :: rest) = (g.liveness rest).set k (g.isLive (g.liveness rest) k) :=
      rfl
    by_cases hik : i = k
    · subst hik
      have hlt : i < (g.liveness rest).length := by
        rw [length_liveness]
        exact (ho.mem_iff i).1 (by simp [hs])
      rw [hcons, List.getElem?_set_self hlt, Option.getD_some, isLive_eq_true, live_iff]
      -- all readers stand behind the node, where the verdicts are right
      have hread : (∃ j, g.Feeds i j ∧ (g.liveness rest)[j]?.getD false = true) ↔
          ∃ j, g.Feeds i j ∧ g.Live j :=
        exists_congr fun j => and_congr_right fun hf => ih hrest (ho.mem_after hs hf)
      rw [hread]
    · have hi' : i ∈ rest := (List.mem_cons.1 hi).resolve_left hik
      rw [hcons, List.getElem?_set_ne (Ne.symm hik)]
      exact ih hrest hi'

theorem liveness_iff {order : List Nat} (ho : g.IsOrder order) (i : Nat) :
    (g.liveness order)[i]?.getD false = true ↔ g.Live i := by
  by_cases hi : i < g.nodes.length
  · exact liveness_suffix ho (List.nil_append order).symm ((ho.mem_iff i).2 hi)
  · have hkind : g.kindAt i = none := by simp [kindAt, hi]
    rw [List.getElem?_eq_none (by simpa [length_liveness] using hi), live_iff]
    simp [Relays, hkind]

end LogicWiring.Graph
