-- Live nodes by paths, and by equations. A path is stopped by outputs and by
-- inputs without a pin, wherever their wires go. Main statement: the verdicts
-- are those of the paths, and the only ones that the equations allow, so every
-- order of the nodes gives the same.
import LogicWiring.Proofs.LiveNodes
import Mathlib

namespace LogicWiring

namespace Graph

variable {g : Graph}

/-! ## Paths -/

/-- Where a path may end: at an output with a pin, or at a node that is no output and that
nothing reads. -/
def PathEnd (g : Graph) (i : Nat) : Prop :=
  (∃ pin, g.kindAt i = some (.output (some pin))) ∨
    i < g.nodes.length ∧ (∀ pin, g.kindAt i ≠ some (.output pin)) ∧ ∀ j, ¬ g.Feeds i j

/-- A path along the edges on which no node but the last is an output, and no node is an
input without a pin. -/
structure LivePath (g : Graph) (path : List Nat) : Prop where
  along : path.IsChain g.Feeds
  through : ∀ i ∈ path.dropLast, ∀ pin, g.kindAt i ≠ some (.output pin)
  pinned : ∀ i ∈ path, g.kindAt i ≠ some (.input none)
  ends : ∃ i, path.getLast? = some i ∧ g.PathEnd i

theorem relays_iff {i : Nat} : g.Relays i ↔ i < g.nodes.length ∧
    (∀ pin, g.kindAt i ≠ some (.output pin)) ∧ g.kindAt i ≠ some (.input none) := by
  by_cases hi : i < g.nodes.length
  · have hk : g.kindAt i = some g.nodes[i].kind := by simp [kindAt, hi]
    simp only [Relays, hk, hi, true_and, Option.some.injEq, exists_eq_left', ne_eq]
    cases g.nodes[i].kind <;> simp [NodeKind.isSink]
  · simp [Relays, kindAt, hi]

theorem successors_eq_nil {i : Nat} : g.successors i = [] ↔ ∀ j, ¬ g.Feeds i j := by
  simp [List.eq_nil_iff_forall_not_mem, mem_successors]

theorem PathEnd.live {i : Nat} (h : g.PathEnd i) (hi : g.kindAt i ≠ some (.input none)) :
    g.Live i := by
  rcases h with ⟨pin, hk⟩ | ⟨hlt, hout, hno⟩
  · exact .routed hk
  · exact .unread (relays_iff.2 ⟨hlt, hout, hi⟩) (successors_eq_nil.2 hno)

theorem LivePath.single {i : Nat} (h : g.PathEnd i) (hi : g.kindAt i ≠ some (.input none)) :
    g.LivePath [i] where
  along := .singleton i
  through := by simp
  pinned := by simpa using hi
  ends := ⟨i, rfl, h⟩

theorem LivePath.cons {i j : Nat} {rest : List Nat} (hi : g.Relays i) (hf : g.Feeds i j)
    (h : g.LivePath (j :: rest)) : g.LivePath (i :: j :: rest) where
  along := .cons_cons hf h.along
  through := by
    rw [List.dropLast_cons_cons, List.forall_mem_cons]
    exact ⟨(relays_iff.1 hi).2.1, h.through⟩
  pinned := List.forall_mem_cons.2 ⟨(relays_iff.1 hi).2.2, h.pinned⟩
  ends := by simpa using h.ends

/-- The first node of a longer path hands its value on, and the rest is a path. -/
theorem LivePath.tail {i j : Nat} {rest : List Nat} (h : g.LivePath (i :: j :: rest)) :
    g.Relays i ∧ g.Feeds i j ∧ g.LivePath (j :: rest) := by
  obtain ⟨hf, halong⟩ := List.isChain_cons_cons.1 h.along
  have hthrough := h.through
  rw [List.dropLast_cons_cons, List.forall_mem_cons] at hthrough
  obtain ⟨hi, hpinned⟩ := List.forall_mem_cons.1 h.pinned
  exact ⟨relays_iff.2 ⟨source_lt_of_feeds hf, hthrough.1, hi⟩, hf,
    ⟨halong, hthrough.2, hpinned, by simpa using h.ends⟩⟩

theorem Live.exists_path {i : Nat} (h : g.Live i) : ∃ rest, g.LivePath (i :: rest) := by
  induction h with
  | routed hk => exact ⟨[], .single (.inl ⟨_, hk⟩) (by simp [hk])⟩
  | unread hrelays hs =>
    obtain ⟨hlt, hout, hin⟩ := relays_iff.1 hrelays
    exact ⟨[], .single (.inr ⟨hlt, hout, successors_eq_nil.1 hs⟩) hin⟩
  | read hrelays hf _ ih =>
    obtain ⟨rest, hrest⟩ := ih
    exact ⟨_, hrest.cons hrelays hf⟩

theorem LivePath.live {i : Nat} {rest : List Nat} (h : g.LivePath (i :: rest)) : g.Live i := by
  induction rest generalizing i with
  | nil =>
    obtain ⟨j, hj, hend⟩ := h.ends
    cases hj
    exact hend.live (h.pinned i (by simp))
  | cons j rest ih =>
    obtain ⟨hrelays, hf, hrest⟩ := h.tail
    exact .read hrelays hf (ih hrest)

theorem live_iff_exists_path {i : Nat} : g.Live i ↔ ∃ rest, g.LivePath (i :: rest) :=
  ⟨Live.exists_path, fun ⟨_, h⟩ => h.live⟩

/-! ## Equations -/

/-- Verdicts on all nodes that agree with those on the readers of each node. -/
structure Settled (g : Graph) (live : List Bool) : Prop where
  length : live.length = g.nodes.length
  output : ∀ i pin, g.kindAt i = some (.output pin) → (live[i]? = some true ↔ pin.isSome)
  pinless : ∀ i, g.kindAt i = some (.input none) → live[i]? = some false
  other : ∀ i < g.nodes.length, (∀ pin, g.kindAt i ≠ some (.output pin)) →
    g.kindAt i ≠ some (.input none) →
    (live[i]? = some true ↔ (∀ j, ¬ g.Feeds i j) ∨ ∃ j, g.Feeds i j ∧ live[j]? = some true)

theorem Settled.step {live : List Bool} (h : g.Settled live) (i : Nat) :
    live[i]? = some true ↔ (∃ pin, g.kindAt i = some (.output (some pin))) ∨
      g.Relays i ∧ (g.successors i = [] ∨ ∃ j, g.Feeds i j ∧ live[j]? = some true) := by
  rw [relays_iff, successors_eq_nil]
  by_cases hi : i < g.nodes.length
  · by_cases hout : ∃ pin, g.kindAt i = some (.output pin)
    · obtain ⟨pin, hk⟩ := hout
      rw [h.output i pin hk, hk]
      cases pin <;> simp
    · have hout' : ∀ pin, g.kindAt i ≠ some (.output pin) := fun pin hk => hout ⟨pin, hk⟩
      by_cases hin : g.kindAt i = some (.input none)
      · simp [h.pinless i hin, hin]
      · simp [h.other i hi hout' hin, hi, hout', hin]
  · have hk : g.kindAt i = none := by simp [kindAt, hi]
    have hlen : live.length ≤ i := by rw [h.length]; exact Nat.le_of_not_lt hi
    simp [List.getElem?_eq_none hlen, hi, hk]

theorem getD_eq_true {live : List Bool} {i : Nat} :
    live[i]?.getD false = true ↔ live[i]? = some true := by
  cases live[i]? <;> simp

/-- The equations leave no choice: a node is settled once all its readers are, and these
stand behind it. -/
theorem Settled.iff_live {live : List Bool} {order : List Nat} (h : g.Settled live)
    (ho : g.IsOrder order) (i : Nat) : live[i]? = some true ↔ g.Live i := by
  have hbehind : WellFounded fun j i => g.Feeds i j :=
    Subrelation.wf (fun hf => by
      have := ho.idxOf_lt hf
      have := List.idxOf_lt_length_of_mem ((ho.mem_iff _).2 (target_lt_of_feeds hf))
      show order.length - _ < order.length - _
      omega) (measure fun i => order.length - order.idxOf i).wf
  induction i using hbehind.induction with
  | _ i ih =>
    have hread : (∃ j, g.Feeds i j ∧ live[j]? = some true) ↔ ∃ j, g.Feeds i j ∧ g.Live j :=
      exists_congr fun j => and_congr_right fun hf => ih j hf
    rw [h.step, live_iff, hread]

theorem settled_of_iff_live {live : List Bool} (hlen : live.length = g.nodes.length)
    (h : ∀ i, live[i]? = some true ↔ g.Live i) : g.Settled live where
  length := hlen
  output i pin hk := by
    rw [h, live_iff, relays_iff]
    cases pin <;> simp [hk]
  pinless i hk := by
    have hlt : i < live.length := hlen ▸ lt_of_kindAt hk
    have hdead : live[i]? ≠ some true := fun hi => ((h i).1 hi).ne_pinless hk
    rw [List.getElem?_eq_getElem hlt] at hdead ⊢
    simpa using hdead
  other i hi hout hin := by
    have hrelays : g.Relays i := relays_iff.2 ⟨hi, hout, hin⟩
    simp only [h]
    rw [live_iff, successors_eq_nil]
    simp [hout, hrelays]

theorem Settled.eq {live live' : List Bool} {order : List Nat} (h : g.Settled live)
    (h' : g.Settled live') (ho : g.IsOrder order) : live = live' := by
  refine List.ext_getElem (h.length.trans h'.length.symm) fun i hi hi' => ?_
  have hsame := (h.iff_live ho i).trans (h'.iff_live ho i).symm
  rw [List.getElem?_eq_getElem hi, List.getElem?_eq_getElem hi'] at hsame
  exact Bool.eq_iff_iff.2 (by simpa using hsame)

end Graph

/-! ## Verdicts -/

/-- The verdicts that an order gives are those of the paths: a node is live exactly if a path
starts at it. They are the one way to settle the nodes, and every order gives the same. -/
theorem liveness_exact {g : Graph} {order : List Nat} (ho : g.IsOrder order) :
    (∀ i, (g.liveness order)[i]? = some true ↔ ∃ rest, g.LivePath (i :: rest)) ∧
    (∀ live, g.Settled live ↔ live = g.liveness order) ∧
    ∀ order', g.IsOrder order' → g.liveness order' = g.liveness order := by
  have hlive : ∀ {order' : List Nat}, g.IsOrder order' →
      ∀ i, (g.liveness order')[i]? = some true ↔ g.Live i := fun ho' i => by
    rw [← Graph.getD_eq_true, Graph.liveness_iff ho']
  have hsettled : ∀ {order' : List Nat}, g.IsOrder order' → g.Settled (g.liveness order') :=
    fun ho' => Graph.settled_of_iff_live (Graph.length_liveness _) (hlive ho')
  have hunique : ∀ live, g.Settled live → live = g.liveness order := fun live h =>
    h.eq (hsettled ho) ho
  exact ⟨fun i => (hlive ho i).trans Graph.live_iff_exists_path,
    fun live => ⟨hunique live, fun h => h ▸ hsettled ho⟩,
    fun order' ho' => hunique _ (hsettled ho')⟩

/-- Wires that leave an output and that end at an input without a pin. -/
def crossed : Graph where
  nodes := [{ id := "a", kind := .input (some 2) }, { id := "o", kind := .output (some 8) },
    { id := "n", kind := .not }, { id := "u", kind := .output none },
    { id := "p", kind := .input none }, { id := "q", kind := .not }]
  edges := [{ source := "a", target := "o" }, { source := "o", target := "n" },
    { source := "n", target := "u" }, { source := "a", target := "p" },
    { source := "p", target := "q" }]
  ids_nodup := by decide
  ends_known := by decide

theorem crossed_liveness_exact :
    crossed.liveness [0, 4, 5, 1, 2, 3] = [true, true, false, false, false, true] ∧
      crossed.Settled [true, true, false, false, false, true] ∧
      (∃ rest, crossed.LivePath (0 :: rest)) ∧ ¬ ∃ rest, crossed.LivePath (2 :: rest) := by
  have ho : crossed.IsOrder [0, 1, 4, 2, 5, 3] :=
    Graph.isOrder_of_evaluationOrder (by cbv)
  have ho' : crossed.IsOrder [0, 4, 5, 1, 2, 3] := by
    refine ⟨by decide, fun i => ?_, by decide⟩
    have hlen : crossed.nodes.length = 6 := rfl
    simp only [List.mem_cons, List.not_mem_nil, or_false, hlen]
    omega
  have hlive : crossed.liveness [0, 1, 4, 2, 5, 3] = [true, true, false, false, false, true] := by
    decide
  obtain ⟨hpath, hsettled, horders⟩ := liveness_exact ho
  rw [hlive] at hpath hsettled horders
  exact ⟨horders _ ho', (hsettled _).2 rfl, (hpath 0).1 rfl,
    fun h => absurd ((hpath 2).2 h) (by decide)⟩

end LogicWiring
