-- Graphs that are wired alike: nodes with the same settings stand at the same
-- places, and links join the same places. They are compiled to one program,
-- or fail alike, for ids only come up in errors. Main statement:
-- `compile_agrees`.
import LogicWiring.Proofs.Positions
import LogicWiring.Compile
import Mathlib.Data.List.Forall2

namespace LogicWiring

/-! ## Outcomes -/

/-- Two runs with the same outcome. Where they fail, they do so at the same places of their
graphs. -/
inductive Agree (g g' : Graph) {α : Type} :
    Except CompileError α → Except CompileError α → Prop
  | ok (a : α) : Agree g g' (.ok a) (.ok a)
  | cycle (places : List Nat) :
    Agree g g' (.error (.cycle (places.map g.idAt))) (.error (.cycle (places.map g'.idAt)))
  | operandRange (i : Nat) (field : OperandField) (value max : Nat) :
    Agree g g' (.error (.operandRange (g.idAt i) field value max))
      (.error (.operandRange (g'.idAt i) field value max))
  | slotOverflow (count max : Nat) :
    Agree g g' (.error (.slotOverflow count max)) (.error (.slotOverflow count max))

namespace Agree

variable {g g' : Graph} {α β γ δ : Type}

theorem bind {x x' : Except CompileError α} {f f' : α → Except CompileError β}
    (hx : Agree g g' x x') (hf : ∀ a, Agree g g' (f a) (f' a)) :
    Agree g g' (x >>= f) (x' >>= f') := by
  cases hx with
  | ok a => exact hf a
  | cycle places => exact .cycle places
  | operandRange i field value max => exact .operandRange i field value max
  | slotOverflow count max => exact .slotOverflow count max

theorem mapM {f : α → Except CompileError γ} {f' : β → Except CompileError γ} {l : List α}
    {l' : List β} (h : List.Forall₂ (fun a b => Agree g g' (f a) (f' b)) l l') :
    Agree g g' (l.mapM f) (l'.mapM f') := by
  induction h with
  | nil => exact .ok []
  | cons hab _ ih =>
    rw [List.mapM_cons, List.mapM_cons]
    exact hab.bind fun b => ih.bind fun bs => .ok (b :: bs)

end Agree

/-! ## Nodes and links -/

/-- A kind without what no program depends on: the number of wires that were drawn to a gate. -/
def NodeKind.plain : NodeKind → NodeKind
  | .gate op _ => .gate op 0
  | kind => kind

/-- What a program depends on in a node: its kind, and whether the mode of its pin is to be
set. -/
def Node.plain (n : Node) : NodeKind × Bool := (n.kind.plain, !n.synthetic && n.kind.pin.isSome)

/-- Kinds that are plainly the same are the same, gates up to the drawn wires. -/
theorem NodeKind.eq_or_gate_of_plain {kind kind' : NodeKind} (h : kind.plain = kind'.plain) :
    kind = kind' ∨ ∃ op fanIn fanIn', kind = .gate op fanIn ∧ kind' = .gate op fanIn' := by
  cases kind with
  | gate op fanIn =>
    cases kind' with
    | gate op' fanIn' =>
      cases h
      exact .inr ⟨op, fanIn, fanIn', rfl, rfl⟩
    | _ => cases h
  | _ =>
    cases kind' with
    | gate op' fanIn' => cases h
    | _ => exact .inl h

/-- What does not look at the wires drawn to a gate depends on the plain kind alone. -/
theorem NodeKind.eq_of_plain {α : Type} {f : NodeKind → α} {kind kind' : NodeKind}
    (h : kind.plain = kind'.plain)
    (hgate : ∀ op fanIn fanIn', f (.gate op fanIn) = f (.gate op fanIn')) : f kind = f kind' := by
  rcases eq_or_gate_of_plain h with hk | ⟨op, fanIn, fanIn', hk, hk'⟩
  · rw [hk]
  · rw [hk, hk']
    exact hgate op fanIn fanIn'

theorem Node.isSink_of_plain {n n' : Node} (h : n.plain = n'.plain) :
    n.kind.isSink = n'.kind.isSink :=
  NodeKind.eq_of_plain (congrArg Prod.fst h) fun _ _ _ => rfl

namespace Graph

/-- A link without the name of its handle if that belongs to a sink, which has only one. -/
def plainLink (g : Graph) (l : Link) : Link :=
  if g.isSinkAt l.target then { l with handle := "" } else l

theorem source_plainLink (g : Graph) (l : Link) : (g.plainLink l).source = l.source := by
  unfold plainLink
  split <;> rfl

theorem target_plainLink (g : Graph) (l : Link) : (g.plainLink l).target = l.target := by
  unfold plainLink
  split <;> rfl

end Graph

/-- Graphs that are wired alike: plainly the same nodes, and the same links. -/
structure SameWiring (g g' : Graph) : Prop where
  nodes : g.nodes.map Node.plain = g'.nodes.map Node.plain
  links : g.links.map g.plainLink = g'.links.map g'.plainLink

/-- The nodes at a place of two such graphs, if there are any. -/
theorem plain_cases {g g' : Graph} (h : g.nodes.map Node.plain = g'.nodes.map Node.plain) (i : Nat) :
    (g.nodes[i]? = none ∧ g'.nodes[i]? = none) ∨
    ∃ n n', g.nodes[i]? = some n ∧ g'.nodes[i]? = some n' ∧ n.plain = n'.plain := by
  have hi : (g.nodes[i]?).map Node.plain = (g'.nodes[i]?).map Node.plain := by
    rw [← List.getElem?_map, h, List.getElem?_map]
  cases hn : g.nodes[i]? with
  | none =>
    rw [hn, Option.map_none, eq_comm, Option.map_eq_none_iff] at hi
    exact .inl ⟨rfl, hi⟩
  | some n =>
    rw [hn, Option.map_some, eq_comm, Option.map_eq_some_iff] at hi
    obtain ⟨n', hn', hplain⟩ := hi
    exact .inr ⟨n, n', rfl, hn', hplain.symm⟩

theorem isSinkAt_eq_of_plain {g g' : Graph} (h : g.nodes.map Node.plain = g'.nodes.map Node.plain)
    (i : Nat) : g.isSinkAt i = g'.isSinkAt i := by
  unfold Graph.isSinkAt
  rcases plain_cases h i with ⟨hn, hn'⟩ | ⟨n, n', hn, hn', hplain⟩
  · rw [hn, hn']
  · rw [hn, hn', Option.any_some, Option.any_some, Node.isSink_of_plain hplain]

namespace SameWiring

variable {g g' : Graph}

theorem length_eq (h : SameWiring g g') : g.nodes.length = g'.nodes.length := by
  simpa using congrArg List.length h.nodes

theorem isAnalogAt_eq (h : SameWiring g g') (i : Nat) : g.isAnalogAt i = g'.isAnalogAt i := by
  unfold Graph.isAnalogAt
  rcases plain_cases h.nodes i with ⟨hn, hn'⟩ | ⟨n, n', hn, hn', hplain⟩
  · rw [hn, hn']
  · rw [hn, hn', Option.any_some, Option.any_some]
    exact NodeKind.eq_of_plain (congrArg Prod.fst hplain) fun _ _ _ => rfl

theorem successors_eq (h : SameWiring g g') (i : Nat) : g.successors i = g'.successors i := by
  have hplain : ∀ g : Graph, g.successors i =
      (g.links.map g.plainLink).filterMap fun l => if l.source = i then some l.target else none := by
    intro g
    rw [List.filterMap_map]
    apply List.filterMap_congr
    intro l _
    simp [Graph.source_plainLink, Graph.target_plainLink]
  rw [hplain, hplain, h.links]

theorem plain_linksInto (h : SameWiring g g') (i : Nat) :
    (g.linksInto i).map g.plainLink = (g'.linksInto i).map g'.plainLink := by
  have hplain : ∀ g : Graph, (g.linksInto i).map g.plainLink =
      (g.links.map g.plainLink).filter (·.target = i) := by
    intro g
    rw [Graph.linksInto, List.filter_map]
    simp [Function.comp_def, Graph.target_plainLink]
  rw [hplain, hplain, h.links]

theorem inDegree_eq (h : SameWiring g g') (i : Nat) : g.inDegree i = g'.inDegree i := by
  simpa [Graph.inDegree] using congrArg List.length (h.plain_linksInto i)

/-- Into a node that is no sink the links are the same with their handles. -/
theorem linksInto_eq (h : SameWiring g g') {i : Nat} (hs : g.isSinkAt i = false) :
    g.linksInto i = g'.linksInto i := by
  have hself : ∀ g : Graph, g.isSinkAt i = false →
      (g.linksInto i).map g.plainLink = g.linksInto i := by
    intro g hs
    refine (List.map_congr_left fun l hl => ?_).trans (List.map_id _)
    have ht : l.target = i := of_decide_eq_true (List.mem_filter.1 hl).2
    simp [Graph.plainLink, ht, hs]
  rw [← hself g hs, ← hself g' (isSinkAt_eq_of_plain h.nodes i ▸ hs), h.plain_linksInto]

/-! ## Order and slots -/

theorem place_eq (h : SameWiring g g') (pending queue : List Nat) :
    g.place pending queue = g'.place pending queue := by
  fun_induction g.place pending queue with
  | case1 => rw [Graph.place]
  | case2 pending i rest released placed left hplace ih =>
    rw [Graph.place, ← h.successors_eq, ← ih, hplace]

theorem evaluationOrder_agrees (h : SameWiring g g') :
    Agree g g' g.evaluationOrder g'.evaluationOrder := by
  have hdegrees : g.inDegrees = g'.inDegrees := by
    rw [Graph.inDegrees, Graph.inDegrees, h.length_eq, funext h.inDegree_eq]
  have hroots : g.roots = g'.roots := by
    simp only [Graph.roots, h.length_eq, h.inDegree_eq]
  unfold Graph.evaluationOrder
  rw [hdegrees, hroots, h.place_eq, h.length_eq]
  dsimp only
  split
  · exact .cycle _
  · exact .ok _

theorem producerCount_eq (h : SameWiring g g') : g.producerCount = g'.producerCount := by
  have hplain : ∀ g : Graph, g.producerCount =
      (g.nodes.map Node.plain).countP fun p => !p.1.isSink := by
    intro g
    rw [Graph.producerCount, List.countP_map]
    congr 1
    funext n
    cases hk : n.kind <;> simp [Node.plain, NodeKind.plain, NodeKind.isSink, hk]
  rw [hplain, hplain, h.nodes]

theorem handOut_eq (h : SameWiring g g') (order : List Nat) (next : UInt8)
    (slots : List (Option UInt8)) : g.handOut order next slots = g'.handOut order next slots := by
  induction order generalizing next slots with
  | nil => rfl
  | cons i rest ih => rw [Graph.handOut, Graph.handOut, isSinkAt_eq_of_plain h.nodes, ih, ih]

theorem allocate_agrees (h : SameWiring g g') (order : List Nat) :
    Agree g g' (g.allocate order) (g'.allocate order) := by
  unfold Graph.allocate
  rw [h.producerCount_eq, h.handOut_eq, h.length_eq]
  split
  · exact .slotOverflow _ _
  · exact .ok _

/-! ## Liveness -/

theorem isLive_eq (h : SameWiring g g') (live : List Bool) (i : Nat) :
    g.isLive live i = g'.isLive live i := by
  unfold Graph.isLive
  rw [h.successors_eq]
  rcases plain_cases h.nodes i with ⟨hn, hn'⟩ | ⟨n, n', hn, hn', hplain⟩
  · rw [hn, hn']
  · rw [hn, hn', Option.map_some, Option.map_some]
    rcases NodeKind.eq_or_gate_of_plain (congrArg Prod.fst hplain) with hk | ⟨op, f, f', hk, hk'⟩
    · rw [hk]
    · rw [hk, hk']

theorem liveness_eq (h : SameWiring g g') (order : List Nat) :
    g.liveness order = g'.liveness order := by
  simp only [Graph.liveness, h.isLive_eq, h.length_eq]

theorem searchForAnalog_eq (h : SameWiring g g') (unseen stack : List Nat) :
    g.searchForAnalog unseen stack = g'.searchForAnalog unseen stack := by
  have hanalog : g.isAnalogAt = g'.isAnalogAt := funext h.isAnalogAt_eq
  fun_induction g.searchForAnalog unseen stack with
  | case1 => rw [Graph.searchForAnalog]
  | case2 unseen i rest hmem next ih =>
    rw [Graph.searchForAnalog, if_pos hmem, ← h.successors_eq, ← hanalog, ih]
  | case3 unseen i rest hmem ih => rw [Graph.searchForAnalog, if_neg hmem, ih]

theorem feedsAnalog_eq (h : SameWiring g g') (i : Nat) : g.feedsAnalog i = g'.feedsAnalog i := by
  rw [Graph.feedsAnalog, Graph.feedsAnalog, h.length_eq, h.searchForAnalog_eq]

/-! ## Instructions -/

theorem driverSlots_eq (h : SameWiring g g') (m : SlotMap) (i : Nat) :
    g.driverSlots m i = g'.driverSlots m i := by
  have hplain : ∀ g : Graph, g.driverSlots m i =
      ((g.linksInto i).map g.plainLink).filterMap fun l => m.get l.source := by
    intro g
    rw [List.filterMap_map]
    simp [Graph.driverSlots, Graph.source_plainLink]
  rw [hplain, hplain, h.plain_linksInto]

theorem handleSlot_eq (h : SameWiring g g') (m : SlotMap) {i : Nat} (hs : g.isSinkAt i = false) :
    g.handleSlot m i = g'.handleSlot m i := by
  funext handle
  simp only [Graph.handleSlot, h.linksInto_eq hs]

end SameWiring

/-! ## Operands -/

section

variable {g g' : Graph} {n n' : Node} {i : Nat}

theorem byteOperand_agrees (hn : n.id = g.idAt i) (hn' : n'.id = g'.idAt i) (field : OperandField)
    (value : Nat) : Agree g g' (byteOperand n field value) (byteOperand n' field value) := by
  unfold byteOperand
  rw [hn, hn']
  split
  · exact .ok _
  · exact .operandRange i field value 255

theorem wordOperand_agrees (hn : n.id = g.idAt i) (hn' : n'.id = g'.idAt i) (field : OperandField)
    (value : UInt32) : Agree g g' (wordOperand n field value) (wordOperand n' field value) := by
  unfold wordOperand
  rw [hn, hn']
  split
  · exact .ok _
  · exact .operandRange i field value.toNat 65535

theorem pinOperand_agrees (hn : n.id = g.idAt i) (hn' : n'.id = g'.idAt i)
    (hpin : n.kind.pin = n'.kind.pin) : Agree g g' (pinOperand n) (pinOperand n') := by
  unfold pinOperand
  rw [hpin]
  exact byteOperand_agrees hn hn' .pin _

theorem Graph.idAt_of_getElem? (h : g.nodes[i]? = some n) : n.id = g.idAt i := by
  simp [Graph.idAt, h]

end

namespace SameWiring

variable {g g' : Graph}

/-! ## Programs -/

theorem produce_agrees (h : SameWiring g g') (m : SlotMap) {i : Nat} {n n' : Node}
    (hn : g.nodes[i]? = some n) (hn' : g'.nodes[i]? = some n') (hplain : n.plain = n'.plain)
    (out : UInt8) : Agree g g' (g.produce m i n out) (g'.produce m i n' out) := by
  have hid := Graph.idAt_of_getElem? hn
  have hid' := Graph.idAt_of_getElem? hn'
  have hbyte := byteOperand_agrees hid hid'
  have hword := wordOperand_agrees hid hid'
  unfold Graph.produce
  rw [← h.driverSlots_eq m i, ← h.feedsAnalog_eq i]
  rcases NodeKind.eq_or_gate_of_plain (congrArg Prod.fst hplain) with hk | ⟨op, f, f', hk, hk'⟩
  · -- Only nodes that are no sinks look at handles.
    have hhandle : n.kind.isSink = false → g.handleSlot m i = g'.handleSlot m i := by
      intro hs
      exact h.handleSlot_eq m (by rw [Graph.isSinkAt_of_getElem? hn, hs])
    rw [← hk]
    cases hkind : n.kind with
    | output pin => exact .ok none
    | input pin =>
      exact (pinOperand_agrees hid hid' (congrArg NodeKind.pin hk)).bind fun _ => .ok _
    | gate op fanIn =>
      dsimp only
      split
      · exact .ok none
      · exact (hbyte .inputCount _).bind fun _ => .ok _
    | not | toggle initial =>
      dsimp only
      split <;> exact .ok _
    | latch initial | compare comparator =>
      rw [← hhandle (by rw [hkind]; rfl)]
      dsimp only
      split <;> exact .ok _
    | pulse length interval =>
      exact (hword .pulseLength length).bind fun _ => (hword .interval interval).bind fun _ => .ok _
    | range min max =>
      dsimp only
      split
      · exact .ok none
      · exact (hword .min min).bind fun _ => (hword .max max).bind fun _ => .ok _
    | shift width initial =>
      rw [← hhandle (by rw [hkind]; rfl)]
      dsimp only
      split
      · exact (hbyte .outputWidth _).bind fun _ => (hbyte .initialState _).bind fun _ => .ok _
      · exact .ok none
  · rw [hk, hk']
    dsimp only
    split
    · exact .ok none
    · exact (hbyte .inputCount _).bind fun _ => .ok _

theorem instruction_agrees (h : SameWiring g g') (m : SlotMap) (i : Nat) :
    Agree g g' (g.instruction m i) (g'.instruction m i) := by
  unfold Graph.instruction
  rcases plain_cases h.nodes i with ⟨hn, hn'⟩ | ⟨n, n', hn, hn', hplain⟩
  · rw [hn, hn']
    exact .ok none
  · rw [hn, hn']
    dsimp only
    have hproduce := h.produce_agrees m hn hn' hplain
    rcases NodeKind.eq_or_gate_of_plain (congrArg Prod.fst hplain) with hk | ⟨op, f, f', hk, hk'⟩
    · rw [← hk, ← h.driverSlots_eq m i]
      split
      · exact (pinOperand_agrees (Graph.idAt_of_getElem? hn) (Graph.idAt_of_getElem? hn')
          (congrArg NodeKind.pin hk)).bind fun _ => .ok _
      · exact hproduce _
      · exact .ok none
    · rw [hk, hk']
      cases m.get i with
      | none => exact .ok none
      | some out => exact hproduce out

theorem body_agrees (h : SameWiring g g') (order : List Nat) (m : SlotMap) (live : List Bool) :
    Agree g g' (g.body order m live) (g'.body order m live) :=
  (Agree.mapM (List.forall₂_same.2 fun i _ => h.instruction_agrees m i)).bind fun _ => .ok _

end SameWiring

/-- A checked walk over the chosen members collects what one over all members does that gets
nothing from the others. -/
theorem mapM_filter_bind {α β γ ε : Type} (p : α → Bool) (f : α → Except ε (Option β))
    (l : List α) (k : List β → Except ε γ) :
    ((l.filter p).mapM f >>= fun found => k (found.filterMap id)) =
      ((l.mapM fun a => if p a then f a else .ok none) >>= fun found => k (found.filterMap id)) := by
  induction l generalizing k with
  | nil => rfl
  | cons a l ih =>
    by_cases hp : p a = true
    · rw [List.filter_cons_of_pos hp, List.mapM_cons, List.mapM_cons, if_pos hp]
      simp only [bind_assoc, pure_bind]
      congr 1
      funext b
      have hcons : ∀ found : List (Option β),
          (b :: found).filterMap id = b.toList ++ found.filterMap id := by
        intro found
        cases b <;> rfl
      simp only [hcons]
      exact ih fun found => k (b.toList ++ found)
    · rw [List.filter_cons_of_neg hp, List.mapM_cons, if_neg hp, ih]
      simp only [bind_assoc, pure_bind]
      rfl

theorem Graph.pinMode_of_pin_none {n : Node} (h : n.kind.pin = none) :
    Graph.pinMode n = .ok none := by
  unfold Graph.pinMode
  cases hk : n.kind with
  | input pin | output pin =>
    rw [hk] at h
    cases h
    rfl
  | _ => rfl

theorem pinMode_agrees {g g' : Graph} {n n' : Node} {i : Nat} (hn : n.id = g.idAt i)
    (hn' : n'.id = g'.idAt i) (hk : n.kind = n'.kind) :
    Agree g g' (Graph.pinMode n) (Graph.pinMode n') := by
  have hpin := pinOperand_agrees hn hn' (congrArg NodeKind.pin hk)
  unfold Graph.pinMode
  rw [← hk]
  split
  · exact hpin.bind fun _ => .ok _
  · exact hpin.bind fun _ => .ok _
  · exact .ok none

namespace SameWiring

variable {g g' : Graph}

/-- Nodes without a pin have no mode, so it does not matter who drew them. -/
theorem drawnMode_agrees (live : Bool) {n n' : Node} {i : Nat} (hn : g.nodes[i]? = some n)
    (hn' : g'.nodes[i]? = some n') (hplain : n.plain = n'.plain) :
    Agree g g' (if !n.synthetic && live then Graph.pinMode n else .ok none)
      (if !n'.synthetic && live then Graph.pinMode n' else .ok none) := by
  obtain ⟨hkind, hmode⟩ := Prod.mk.inj hplain
  rcases NodeKind.eq_or_gate_of_plain hkind with hk | ⟨op, f, f', hk, hk'⟩
  · cases hpin : n.kind.pin with
    | none =>
      have hpin' : n'.kind.pin = none := hk ▸ hpin
      rw [Graph.pinMode_of_pin_none hpin, Graph.pinMode_of_pin_none hpin', ite_self, ite_self]
      exact .ok none
    | some pin =>
      have hdrawn : n.synthetic = n'.synthetic := by simpa [← hk, hpin] using hmode
      rw [hdrawn]
      split
      · exact pinMode_agrees (Graph.idAt_of_getElem? hn) (Graph.idAt_of_getElem? hn') hk
      · exact .ok none
  · have hpin : n.kind.pin = none := by rw [hk]; rfl
    have hpin' : n'.kind.pin = none := by rw [hk']; rfl
    rw [Graph.pinMode_of_pin_none hpin, Graph.pinMode_of_pin_none hpin', ite_self, ite_self]
    exact .ok none

theorem preamble_agrees (h : SameWiring g g') (live : List Bool) :
    Agree g g' (g.preamble live) (g'.preamble live) := by
  have hall : ∀ g : Graph, g.preamble live =
      (g.nodes.zipIdx.mapM fun x => if !x.1.synthetic && live[x.2]?.getD false then
        Graph.pinMode x.1 else .ok none) >>= fun modes => .ok (modes.filterMap id) := fun g =>
    mapM_filter_bind (fun x : Node × Nat => !x.1.synthetic && live[x.2]?.getD false)
      (fun x => Graph.pinMode x.1) g.nodes.zipIdx Except.ok
  rw [hall, hall]
  refine (Agree.mapM ?_).bind fun _ => .ok _
  rw [List.forall₂_iff_get]
  refine ⟨by simpa using h.length_eq, fun i hi hi' => ?_⟩
  simp only [List.get_eq_getElem, List.getElem_zipIdx, Nat.zero_add]
  simp only [List.length_zipIdx] at hi hi'
  have hn := List.getElem?_eq_getElem hi
  have hn' := List.getElem?_eq_getElem hi'
  refine drawnMode_agrees _ hn hn' ?_
  rcases plain_cases h.nodes i with ⟨hnone, -⟩ | ⟨n, n', hm, hm', hplain⟩
  · rw [hn] at hnone
    cases hnone
  · rw [hn] at hm
    rw [hn'] at hm'
    cases hm
    cases hm'
    exact hplain

/-- Graphs that are wired alike have the same program for an order and a slot map. -/
theorem program_agrees (h : SameWiring g g') (order : List Nat) (m : SlotMap) :
    Agree g g' (g.program order m) (g'.program order m) := by
  unfold Graph.program
  rw [h.liveness_eq]
  exact (h.preamble_agrees _).bind fun _ => (h.body_agrees order m _).bind fun _ => .ok _

end SameWiring

/-- What is compiled depends on the normalized graphs as far as they are wired. -/
theorem compile_agrees {g g' : Graph} (h : SameWiring g.normalize.graph g'.normalize.graph) :
    Agree g.normalize.graph g'.normalize.graph (compile g) (compile g') :=
  h.evaluationOrder_agrees.bind fun order =>
    (h.allocate_agrees order).bind fun m => h.program_agrees order m

end LogicWiring
