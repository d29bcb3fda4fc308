-- Runs of stages on a state that earlier runs may have left. What a stage
-- reports depends on the graph alone, as long as the state is sound: all that
-- it keeps is what the graph gives. Each stage keeps the state sound, so each
-- run does. Main statement: `Build.Sound.run`.
import LogicWiring.Build
import LogicWiring.Proofs.Failures
import LogicWiring.Proofs.Placing
import Mathlib.Data.List.Chain

namespace LogicWiring

namespace Graph

variable {g : Graph}

/-! ## What each stage reports -/

/-- The slots along the order of the normalized graph. -/
def normalizedSlots (g : Graph) : Except CompileError SlotMap := do
  let order ← g.normalize.graph.evaluationOrder
  g.normalize.graph.allocate order

theorem normalizedSlots_of_order {order : List Nat}
    (h : g.normalize.graph.evaluationOrder = .ok order) :
    g.normalizedSlots = g.normalize.graph.allocate order := by
  unfold normalizedSlots
  rw [h]
  rfl

theorem compile_of_slots {order : List Nat} {m : SlotMap}
    (ho : g.normalize.graph.evaluationOrder = .ok order) (hm : g.normalizedSlots = .ok m) :
    compile g = g.normalize.graph.program order m := by
  rw [normalizedSlots_of_order ho] at hm
  unfold compile
  simp only [ho, hm, bind, Except.bind]

end Graph

def failureReport {α : Type} : Except CompileError α → List Diagnostic
  | .ok _ => []
  | .error e => [e.report]

/-- What a stage reports on a graph, if no stage before it reports anything. -/
def Graph.verdict (g : Graph) : Stage → List Diagnostic
  | .normalize => certReport g.normalize.graph.fanInCert.obligations "fan-in" "E0600"
  | .order => failureReport g.normalize.graph.evaluationOrder
  | .allocate => failureReport g.normalizedSlots
  | .codegen => failureReport (compile g)

/-- The first of some stages that reports anything. -/
def Graph.failing (g : Graph) (stages : List Stage) : Option Stage :=
  stages.find? fun stage => !(g.verdict stage).isEmpty

theorem isError_report (e : CompileError) : e.report.isError = true := by
  cases e <;> rfl

theorem failureReport_cases {α : Type} (x : Except CompileError α) :
    failureReport x = [] ∨ ∃ d, failureReport x = [d] ∧ d.isError = true := by
  cases x with
  | ok a => exact .inl rfl
  | error e => exact .inr ⟨e.report, rfl, isError_report e⟩

/-- A stage reports nothing, or one error. -/
theorem Graph.verdict_cases (g : Graph) (stage : Stage) :
    g.verdict stage = [] ∨ ∃ d, g.verdict stage = [d] ∧ d.isError = true := by
  cases stage with
  | normalize =>
    unfold verdict certReport
    dsimp only
    split
    · exact .inl rfl
    · exact .inr ⟨_, rfl, rfl⟩
  | order => exact failureReport_cases _
  | allocate => exact failureReport_cases _
  | codegen => exact failureReport_cases _

namespace Build

/-! ## Sound states -/

/-- All that the state keeps is what the graph gives, and nothing is kept without what it
was made from. -/
structure Sound (b : Build) (g : Graph) : Prop where
  graph : b.graph = g
  normalized : ∀ n, b.normalized = some n → n = g.normalize
  fanInCert : b.fanInCert = b.normalized.map fun n => n.graph.fanInCert
  order : ∀ o, b.order = some o → b.normalized.isSome ∧ g.verdict .normalize = [] ∧
    g.normalize.graph.evaluationOrder = .ok o
  orderCert : b.orderCert = b.order.map g.normalize.graph.orderCert
  slots : ∀ m, b.slots = some m → b.order.isSome ∧ g.normalizedSlots = .ok m
  program : ∀ p, b.program = some p → b.slots.isSome ∧ compile g = .ok p

theorem sound_start (g : Graph) : Sound { graph := g } g where
  graph := rfl
  normalized := by simp
  fanInCert := rfl
  order := by simp
  orderCert := rfl
  slots := by simp
  program := by simp

/-- The stage has left its artifact, without an error. -/
def Done (b : Build) (g : Graph) : Stage → Prop
  | .normalize => b.normalized = some g.normalize ∧ g.verdict .normalize = []
  | .order => b.order.isSome
  | .allocate => b.slots.isSome
  | .codegen => b.program.isSome

/-- What a stage does to a state: a report that depends on the graph alone, and a sound state
with the same diagnostics, where the stage is done if it reported nothing. -/
structure Stepped (b b' : Build) (g : Graph) (stage : Stage) (ds : List Diagnostic) : Prop where
  report : ds = g.verdict stage
  sound : b'.Sound g
  diagnostics : b'.diagnostics = b.diagnostics
  hasError : b'.hasError = b.hasError
  done : g.verdict stage = [] → b'.Done g stage

variable {b : Build} {g : Graph}

namespace Sound

/-- What was made from something is kept together with it. -/
theorem done_inputs (h : b.Sound g) {stage s : Stage} (hd : b.Done g stage)
    (hs : s ∈ stage.inputs) : b.Done g s := by
  cases stage with
  | normalize => simp [Stage.inputs] at hs
  | order =>
    cases List.mem_singleton.1 hs
    obtain ⟨o, ho⟩ := Option.isSome_iff_exists.1 hd
    obtain ⟨hn, hverdict, -⟩ := h.order o ho
    obtain ⟨n, hn⟩ := Option.isSome_iff_exists.1 hn
    exact ⟨by rw [hn, h.normalized n hn], hverdict⟩
  | allocate =>
    cases List.mem_singleton.1 hs
    obtain ⟨m, hm⟩ := Option.isSome_iff_exists.1 hd
    exact (h.slots m hm).1
  | codegen =>
    cases List.mem_singleton.1 hs
    obtain ⟨p, hp⟩ := Option.isSome_iff_exists.1 hd
    exact (h.program p hp).1

theorem done_normalize (h : b.Sound g) {o : List Nat} (ho : b.order = some o) :
    b.Done g .normalize :=
  h.done_inputs (show b.Done g .order by simp [Done, ho]) (by simp [Stage.inputs])

/-- A stage that has left its artifact reports nothing. -/
theorem verdict_eq_nil (h : b.Sound g) {stage : Stage} (hd : b.Done g stage) :
    g.verdict stage = [] := by
  cases stage with
  | normalize => exact hd.2
  | order =>
    obtain ⟨o, ho⟩ := Option.isSome_iff_exists.1 hd
    simp [Graph.verdict, failureReport, (h.order o ho).2.2]
  | allocate =>
    obtain ⟨m, hm⟩ := Option.isSome_iff_exists.1 hd
    simp [Graph.verdict, failureReport, (h.slots m hm).2]
  | codegen =>
    obtain ⟨p, hp⟩ := Option.isSome_iff_exists.1 hd
    simp [Graph.verdict, failureReport, (h.program p hp).2]

theorem workingGraph (h : b.Done g .normalize) : b.workingGraph = g.normalize.graph := by
  simp [Build.workingGraph, h.1]

/-! ## Each stage -/

theorem normalize (h : b.Sound g) : Stepped b b.runNormalize.1 g .normalize b.runNormalize.2 where
  report := by
    unfold runNormalize
    rw [h.graph]
    rfl
  sound := { h with
    normalized := by
      rintro n ⟨⟩
      rw [h.graph]
    fanInCert := rfl
    order := fun o ho => ⟨rfl, (h.order o ho).2⟩ }
  diagnostics := rfl
  hasError := rfl
  done hverdict := ⟨by simp [runNormalize, h.graph], hverdict⟩

/-- A stage that fails leaves the state as it is. -/
theorem failed (h : b.Sound g) {stage : Stage} {d : Diagnostic} (hd : g.verdict stage = [d]) :
    Stepped b b g stage [d] where
  report := hd.symm
  sound := h
  diagnostics := rfl
  hasError := rfl
  done := by simp [hd]

theorem place (h : b.Sound g) (hd : b.Done g .normalize) :
    Stepped b b.runOrder.1 g .order b.runOrder.2 := by
  unfold runOrder
  rw [workingGraph hd]
  cases ho : g.normalize.graph.evaluationOrder with
  | error e => exact h.failed (by simp [Graph.verdict, ho, failureReport])
  | ok order =>
    have hcert := (Graph.isOrder_of_evaluationOrder ho).orderCert_eq
    exact {
      report := by
        simp only [Graph.verdict, ho, failureReport, hcert]
        rfl
      sound := { h with
        order := by
          rintro o ⟨⟩
          exact ⟨by simp [hd.1], hd.2, ho⟩
        orderCert := rfl
        slots := fun m hm => ⟨rfl, (h.slots m hm).2⟩ }
      diagnostics := rfl
      hasError := rfl
      done := fun _ => rfl }

theorem allocate (h : b.Sound g) {order : List Nat} (ho : b.order = some order) :
    Stepped b (b.runAllocate order).1 g .allocate (b.runAllocate order).2 := by
  have hslots : g.normalizedSlots = g.normalize.graph.allocate order :=
    Graph.normalizedSlots_of_order (h.order order ho).2.2
  unfold runAllocate
  rw [workingGraph (h.done_normalize ho)]
  cases hm : g.normalize.graph.allocate order with
  | error e => exact h.failed (by simp [Graph.verdict, hslots, hm, failureReport])
  | ok m =>
    exact {
      report := by simp [Graph.verdict, hslots, hm, failureReport]
      sound := { h with
        slots := by
          rintro m' ⟨⟩
          exact ⟨by simp [ho], hslots.trans hm⟩
        program := fun p hp => ⟨rfl, (h.program p hp).2⟩ }
      diagnostics := rfl
      hasError := rfl
      done := fun _ => rfl }

theorem codegen (h : b.Sound g) {order : List Nat} {m : SlotMap} (ho : b.order = some order)
    (hm : b.slots = some m) :
    Stepped b (b.runCodegen order m).1 g .codegen (b.runCodegen order m).2 := by
  have hcompile : compile g = g.normalize.graph.program order m :=
    Graph.compile_of_slots (h.order order ho).2.2 (h.slots m hm).2
  unfold runCodegen
  rw [workingGraph (h.done_normalize ho)]
  cases hp : g.normalize.graph.program order m with
  | error e => exact h.failed (by simp [Graph.verdict, hcompile, hp, failureReport])
  | ok p =>
    exact {
      report := by simp [Graph.verdict, hcompile, hp, failureReport]
      sound := { h with
        program := by
          rintro p' ⟨⟩
          exact ⟨by simp [hm], hcompile.trans hp⟩ }
      diagnostics := rfl
      hasError := rfl
      done := fun _ => rfl }

/-- One stage, on a state in which the stages it builds on are done. -/
theorem step (h : b.Sound g) {stage : Stage} (hd : ∀ s ∈ stage.inputs, b.Done g s) :
    ∃ b' ds, b.runStage stage = .ok (b', ds) ∧ Stepped b b' g stage ds := by
  cases stage with
  | normalize => exact ⟨_, _, rfl, h.normalize⟩
  | order => exact ⟨_, _, rfl, h.place (hd .normalize (by simp [Stage.inputs]))⟩
  | allocate =>
    obtain ⟨order, ho⟩ := Option.isSome_iff_exists.1 (hd .order (by simp [Stage.inputs]))
    exact ⟨_, _, by simp only [runStage, ho], h.allocate ho⟩
  | codegen =>
    obtain ⟨m, hm⟩ := Option.isSome_iff_exists.1 (hd .allocate (by simp [Stage.inputs]))
    obtain ⟨order, ho⟩ := Option.isSome_iff_exists.1 (h.slots m hm).1
    exact ⟨_, _, by simp only [runStage, ho, hm], h.codegen ho hm⟩

end Sound

/-! ## Runs -/

/-- How a run of some stages ends: at the first stage with a report, which is all that is
added to the diagnostics. -/
structure Ended (b : Build) (g : Graph) (stages : List Stage) (r : Run) : Prop where
  outcome : r.outcome = (g.failing stages).elim .done .failed
  sound : r.build.Sound g
  diagnostics : r.build.diagnostics = b.diagnostics ++ (g.failing stages).elim [] g.verdict
  hasError : r.build.hasError = (b.hasError || (g.failing stages).isSome)
  done : g.failing stages = none → ∀ s ∈ stages.getLast?, r.build.Done g s

theorem Ended.of_failing {stages : List Stage} {stage : Stage} {ds : List Diagnostic} {r : Run}
    (h : Ended { graph := g } g stages r) (hstage : g.failing stages = some stage)
    (hds : g.verdict stage = ds) :
    r.outcome = .failed stage ∧ r.build.hasError = true ∧ r.build.diagnostics = ds := by
  refine ⟨?_, ?_, ?_⟩
  · rw [h.outcome, hstage]
    rfl
  · simp [h.hasError, hstage]
  · rw [h.diagnostics, hstage, Option.elim_some, hds]
    rfl

theorem Sound.note (h : b.Sound g) (ds : List Diagnostic) : (b.note ds).Sound g :=
  ⟨h.graph, h.normalized, h.fanInCert, h.order, h.orderCert, h.slots, h.program⟩

theorem Done.note {stage : Stage} (h : b.Done g stage) (ds : List Diagnostic) :
    (b.note ds).Done g stage := by
  cases stage <;> exact h

theorem failing_cons_of_nil {stage : Stage} {rest : List Stage} (h : g.verdict stage = []) :
    g.failing (stage :: rest) = g.failing rest := by
  simp [Graph.failing, h]

theorem failing_cons_of_report {stage : Stage} {rest : List Stage} {d : Diagnostic}
    (h : g.verdict stage = [d]) : g.failing (stage :: rest) = some stage := by
  simp [Graph.failing, h]

/-- Each stage builds on the one before it, and the first on stages that are done. -/
theorem Sound.runStages (h : b.Sound g) {stages : List Stage}
    (hchain : stages.IsChain fun s t => t.inputs ⊆ [s])
    (hfirst : ∀ s ∈ stages.head?, ∀ t ∈ s.inputs, b.Done g t) :
    Ended b g stages (b.runStages stages) := by
  induction stages generalizing b with
  | nil => exact ⟨rfl, h, (List.append_nil _).symm, (Bool.or_false _).symm, by simp⟩
  | cons stage rest ih =>
    obtain ⟨b', ds, hrun, hstep⟩ := h.step (hfirst stage rfl)
    have hreport := hstep.report
    rw [Build.runStages, hrun]
    dsimp only
    rcases g.verdict_cases stage with hnone | ⟨d, hd, herror⟩
    · -- nothing is reported, and the rest runs on the state of this stage
      rw [hnone] at hreport
      subst hreport
      have hdone := (hstep.done hnone).note []
      have hrest : Ended (b'.note []) g rest ((b'.note []).runStages rest) := by
        apply ih (hstep.sound.note [])
        · exact (List.isChain_cons.1 hchain).2
        · intro s hs t ht
          have hinputs := (List.isChain_cons.1 hchain).1 s hs ht
          rw [List.mem_singleton.1 hinputs]
          exact hdone
      rw [if_neg (by simp)]
      refine ⟨?_, hrest.sound, ?_, ?_, ?_⟩
      · rw [failing_cons_of_nil hnone]
        exact hrest.outcome
      · rw [failing_cons_of_nil hnone, ← hstep.diagnostics]
        simpa [Build.note] using hrest.diagnostics
      · rw [failing_cons_of_nil hnone, ← hstep.hasError]
        simpa [Build.note] using hrest.hasError
      · rw [failing_cons_of_nil hnone]
        intro hpass s hs
        cases rest with
        | nil =>
          cases hs
          exact hdone
        | cons next rest => exact hrest.done hpass s hs
    · rw [hd] at hreport
      subst hreport
      rw [if_pos (by simp [herror])]
      refine ⟨?_, hstep.sound.note [d], ?_, ?_, ?_⟩
      · rw [failing_cons_of_report hd]
        rfl
      · rw [failing_cons_of_report hd, Option.elim_some, hd, ← hstep.diagnostics]
        rfl
      · simp [failing_cons_of_report hd, Build.note, herror]
      · simp [failing_cons_of_report hd]

/-- A run for a stage, on a state that any runs have left, ends as the graph decides. -/
theorem Sound.run (h : b.Sound g) (stage : Stage) : Ended b g stage.required (b.run stage) := by
  apply h.runStages
  · cases stage <;> decide
  · cases stage <;> simp [Stage.required, Stage.all, Stage.inputs]

end Build

end LogicWiring
