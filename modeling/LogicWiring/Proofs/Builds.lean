-- What a build leaves behind. A build of a new state agrees with compiling the
-- graph at once, and no sequence of runs ever leaves anything in the state
-- that is not right for the graph. Main statements: `build_agrees_with_compile`
-- and `rebuilds_stay_sound`.
import LogicWiring.Proofs.Limits
import LogicWiring.Proofs.Simulation
import LogicWiring.Proofs.SingleDriver
import LogicWiring.Proofs.StageRuns
import Mathlib

namespace LogicWiring

namespace Graph

variable {g : Graph}

/-! ## The first stage -/

theorem fanInCert_normalize (g : Graph) : g.normalize.graph.fanInCert =
    ⟨true, g.normalize.graph.fanInCert.mergesConsistent⟩ := by
  have hsingle : g.normalize.graph.fanInCert.singleDriver = true :=
    singleDriver_iff_nodup.2 g.handles_normalize_nodup
  rw [← hsingle]

theorem verdict_normalize_pass (h : g.normalize.graph.fanInCert = ⟨true, true⟩) :
    g.verdict .normalize = [] := by
  rw [verdict, h]
  rfl

/-- The handles always pass, so what fails is the count of a synthetic node. -/
theorem verdict_normalize_fail (h : g.normalize.graph.fanInCert ≠ ⟨true, true⟩) :
    g.verdict .normalize =
      [.error "E0600" "fan-in verification failed: N2_merges_consistent"] := by
  have hcert : g.normalize.graph.fanInCert = ⟨true, false⟩ := by
    rw [fanInCert_normalize] at h ⊢
    simpa using h
  rw [verdict, hcert]
  decide

/-! ## The stages after it -/

theorem failing_of_compile_ok {p : Program} (h : compile g = .ok p) :
    g.failing [.order, .allocate, .codegen] = none := by
  obtain ⟨order, m, ho, hm, -⟩ := compile_eq_ok.1 h
  have hslots : g.normalizedSlots = .ok m := by rw [normalizedSlots_of_order ho, hm]
  simp [failing, verdict, failureReport, ho, hslots, h]

/-- The first stage that reports anything is the one that the error belongs to. -/
theorem failing_of_compile_error {e : CompileError} (h : compile g = .error e) :
    g.failing [.order, .allocate, .codegen] = some e.stage ∧ g.verdict e.stage = [e.report] := by
  rcases compile_eq_error.1 h with ho | ⟨order, ho, hrest⟩
  · have hstage : e.stage = .order := evaluationOrder_failsIn _ e ho
    rw [hstage]
    simp [failing, verdict, failureReport, ho]
  · have hslots := normalizedSlots_of_order ho
    rcases hrest with hm | ⟨m, hm, hp⟩
    · have hstage : e.stage = .allocate := allocate_failsIn _ order e hm
      rw [hstage]
      simp [failing, verdict, failureReport, ho, hslots, hm]
    · have hstage : e.stage = .codegen := program_failsIn _ m order e hp
      rw [hstage]
      simp [failing, verdict, failureReport, ho, hslots, hm, h]

end Graph

namespace Build

variable {g : Graph}

/-! ## One build -/

theorem run_new (g : Graph) : Ended { graph := g } g [.normalize, .order, .allocate, .codegen]
    (Build.run { graph := g } .codegen) :=
  (sound_start g).run .codegen

theorem run_new_of_ok {p : Program} (hpass : g.verdict .normalize = []) (h : compile g = .ok p) :
    let r := Build.run { graph := g } .codegen
    r.outcome = .done ∧ r.build.program = some p ∧ r.build.diagnostics = [] := by
  have hr := run_new g
  have hnone : g.failing [.normalize, .order, .allocate, .codegen] = none :=
    (failing_cons_of_nil hpass).trans (Graph.failing_of_compile_ok h)
  obtain ⟨p', hp'⟩ := Option.isSome_iff_exists.1 (hr.done hnone .codegen rfl)
  have hsame := (hr.sound.program p' hp').2.symm.trans h
  cases hsame
  refine ⟨?_, hp', ?_⟩
  · rw [hr.outcome, hnone]
    rfl
  · rw [hr.diagnostics, hnone]
    rfl

theorem run_new_of_error {e : CompileError} (hpass : g.verdict .normalize = [])
    (h : compile g = .error e) :
    let r := Build.run { graph := g } .codegen
    r.outcome = .failed e.stage ∧ r.build.hasError = true ∧ r.build.diagnostics = [e.report] := by
  obtain ⟨hstage, hverdict⟩ := Graph.failing_of_compile_error h
  exact (run_new g).of_failing ((failing_cons_of_nil hpass).trans hstage) hverdict

theorem run_new_of_report {d : Diagnostic} (h : g.verdict .normalize = [d]) :
    let r := Build.run { graph := g } .codegen
    r.outcome = .failed .normalize ∧ r.build.hasError = true ∧ r.build.diagnostics = [d] :=
  (run_new g).of_failing (failing_cons_of_report h) h

end Build

theorem code_report_ne (e : CompileError) : e.report.code ≠ some "E0601" := by
  cases e <;> simp [CompileError.report, Diagnostic.error]

/-- A build of a new state fails in its first stage exactly if the author marked a node as
synthetic that is no OR of its driven handles. Any other build ends as compiling the graph
does, with the same program, or with the report of the same error in the stage it belongs to.
An order is never found to be wrong. -/
theorem build_agrees_with_compile (g : Graph) (hsize : g.edges.length < 2 ^ 32) :
    let r := Build.run { graph := g } .codegen
    let countsHandles := ∀ n ∈ g.nodes, n.synthetic = true →
      ∃ fanIn, n.kind = .gate .or fanIn ∧
        fanIn.toNat = g.handles.eraseDups.countP (·.node = n.id)
    (¬ countsHandles → r.outcome = .failed .normalize ∧ r.build.hasError = true ∧
      r.build.diagnostics =
        [.error "E0600" "fan-in verification failed: N2_merges_consistent"]) ∧
    (countsHandles →
      (∀ p, (r.outcome = .done ∧ r.build.program = some p ∧ r.build.diagnostics = []) ↔
        compile g = .ok p) ∧
      ((∃ stage, r.outcome = .failed stage) ↔ ∃ e, compile g = .error e) ∧
      ∀ e, compile g = .error e → r.outcome = .failed e.stage ∧ r.build.hasError = true ∧
        r.build.diagnostics = [e.report]) ∧
    (∀ (n : Graph) (order : List Nat), n.evaluationOrder = .ok order →
      n.orderCert order = ⟨true, true⟩) ∧
    ∀ d ∈ r.build.diagnostics, d.code ≠ some "E0601" := by
  intro r countsHandles
  have hcert : g.normalize.graph.fanInCert = ⟨true, true⟩ ↔ countsHandles :=
    Graph.fanInCert_normalize_iff hsize
  have hpass : countsHandles → g.verdict .normalize = [] := fun hc =>
    Graph.verdict_normalize_pass (hcert.2 hc)
  have hreport : ¬ countsHandles → g.verdict .normalize =
      [.error "E0600" "fan-in verification failed: N2_merges_consistent"] := fun hc =>
    Graph.verdict_normalize_fail (mt hcert.1 hc)
  refine ⟨fun hc => Build.run_new_of_report (hreport hc), fun hc => ⟨fun p => ⟨?_, ?_⟩, ⟨?_, ?_⟩,
    fun e => Build.run_new_of_error (hpass hc)⟩, ?_, ?_⟩
  · rintro ⟨-, hp, -⟩
    exact ((Build.run_new g).sound.program p hp).2
  · exact Build.run_new_of_ok (hpass hc)
  · rintro ⟨stage, hstage⟩
    cases hcompile : compile g with
    | ok p =>
      rw [(Build.run_new_of_ok (hpass hc) hcompile).1] at hstage
      cases hstage
    | error e => exact ⟨e, rfl⟩
  · rintro ⟨e, he⟩
    exact ⟨e.stage, (Build.run_new_of_error (hpass hc) he).1⟩
  · intro n order ho
    exact (Graph.isOrder_of_evaluationOrder ho).orderCert_eq
  · intro d hd
    by_cases hc : countsHandles
    · cases hcompile : compile g with
      | ok p => simp [r, (Build.run_new_of_ok (hpass hc) hcompile).2.2] at hd
      | error e =>
        rw [(Build.run_new_of_error (hpass hc) hcompile).2.2] at hd
        cases List.mem_singleton.1 hd
        exact code_report_ne e
    · rw [(Build.run_new_of_report (hreport hc)).2.2] at hd
      cases List.mem_singleton.1 hd
      simp [Diagnostic.error]

/-- Two wires on one handle of a node that calls itself an OR of two. -/
def miscount : Graph where
  nodes := [
    { id := "a", kind := .input (some 1) },
    { id := "b", kind := .input (some 2) },
    { id := "or", kind := .gate .or 2, synthetic := true }]
  edges := [
    { source := "b", target := "or", targetHandle := "in0" },
    { source := "a", target := "or", targetHandle := "in0" }]
  ids_nodup := by decide
  ends_known := by decide

theorem builds_agree_with_compile :
    (meeting.edges.length < 2 ^ 32 ∧ compile meeting = .ok meetingProgram ∧
      let r := Build.run { graph := meeting } .codegen
      r.outcome = .done ∧ r.build.program = some meetingProgram ∧ r.build.diagnostics = []) ∧
    (miscount.edges.length < 2 ^ 32 ∧
      let r := Build.run { graph := miscount } .codegen
      r.outcome = .failed .normalize ∧ r.build.hasError = true ∧ r.build.diagnostics =
        [.error "E0600" "fan-in verification failed: N2_merges_consistent"]) := by
  have hmeeting : meeting.edges.length < 2 ^ 32 := by decide
  have hdrawn : ∀ n ∈ meeting.nodes, n.synthetic = false := by decide
  have hmiscount : miscount.edges.length < 2 ^ 32 := by decide
  refine ⟨⟨hmeeting, compile_meeting, ?_⟩, hmiscount, ?_⟩
  · refine (((build_agrees_with_compile meeting hmeeting).2.1 ?_).1 meetingProgram).2
      compile_meeting
    intro n hn hs
    simp [hdrawn n hn] at hs
  · refine (build_agrees_with_compile miscount hmiscount).1 fun hall => ?_
    obtain ⟨fanIn, hkind, hcount⟩ := hall _ (List.getLast_mem (l := miscount.nodes) (by decide)) rfl
    cases hkind
    exact absurd hcount (by decide)

/-! ## Many runs -/

namespace Stage

/-- What has to run for a stage is the stage, and what has to run for its inputs. -/
theorem mem_required {s t : Stage} :
    t ∈ s.required ↔ t = s ∨ ∃ u ∈ s.inputs, t ∈ u.required := by
  cases s <;> cases t <;> decide

theorem length_required_lt {s u : Stage} (h : u ∈ s.inputs) :
    u.required.length < s.required.length := by
  revert h
  cases s <;> cases u <;> decide

end Stage

namespace Build

/-- The state after a run for each of these stages, one after the other. -/
def after (b : Build) (stages : List Stage) : Build :=
  stages.foldl (fun b stage => (b.run stage).build) b

variable {b : Build} {g : Graph}

theorem after_concat (b : Build) (stages : List Stage) (stage : Stage) :
    b.after (stages ++ [stage]) = ((b.after stages).run stage).build := by
  simp [after]

theorem Sound.after (h : b.Sound g) (stages : List Stage) : (b.after stages).Sound g := by
  induction stages using List.reverseRecOn with
  | nil => exact h
  | append_singleton stages stage ih =>
    rw [after_concat]
    exact (ih.run stage).sound

theorem Sound.hasError_after (h : b.Sound g) (stages : List Stage) : (b.after stages).hasError =
    (b.hasError || stages.any fun stage => (g.failing stage.required).isSome) := by
  induction stages using List.reverseRecOn with
  | nil => exact (Bool.or_false _).symm
  | append_singleton stages stage ih =>
    rw [after_concat, ((h.after stages).run stage).hasError, ih]
    simp [Bool.or_assoc]

theorem Ended.outcome_eq_failed_iff {stages : List Stage} {stage : Stage} {r : Run}
    (h : Ended b g stages r) : r.outcome = .failed stage ↔ g.failing stages = some stage := by
  rw [h.outcome]
  cases g.failing stages <;> simp

theorem Ended.failing_eq_none {stages : List Stage} {r : Run} (h : Ended b g stages r)
    (hd : r.outcome = .done) : g.failing stages = none := by
  by_contra hsome
  obtain ⟨failing, hf⟩ := Option.ne_none_iff_exists'.1 hsome
  rw [h.outcome_eq_failed_iff.2 hf] at hd
  cases hd

theorem Ended.not_lacking {stages : List Stage} {r : Run} (h : Ended b g stages r)
    (artifact : Artifact) : r.outcome ≠ .lacking artifact := by
  rw [h.outcome]
  cases g.failing stages <;> simp

theorem Ended.diagnostics_of_done {stages : List Stage} {r : Run} (h : Ended b g stages r)
    (hd : r.outcome = .done) : r.build.diagnostics = b.diagnostics := by
  rw [h.diagnostics, h.failing_eq_none hd, Option.elim_none, List.append_nil]

theorem Ended.diagnostics_of_failed {stages : List Stage} {stage : Stage} {r : Run}
    (h : Ended b g stages r) (hf : r.outcome = .failed stage) :
    ∃ d, d.isError = true ∧ r.build.diagnostics = b.diagnostics ++ [d] := by
  have hf := h.outcome_eq_failed_iff.1 hf
  rw [h.diagnostics, hf, Option.elim_some]
  rcases g.verdict_cases stage with hnil | ⟨d, hd, herror⟩
  · simpa [hnil] using List.find?_some hf
  · exact ⟨d, herror, by rw [hd]⟩

/-- An error is noted exactly if one of the runs fails. -/
theorem Sound.hasError_after_iff (h : b.Sound g) (hclean : b.hasError = false)
    (stages : List Stage) : (b.after stages).hasError = true ↔
      ∃ before s later failing, stages = before ++ s :: later ∧
        ((b.after before).run s).outcome = .failed failing := by
  rw [h.hasError_after, hclean, Bool.false_or, List.any_eq_true]
  constructor
  · rintro ⟨s, hs, hfails⟩
    obtain ⟨before, later, hsplit⟩ := List.append_of_mem hs
    obtain ⟨failing, hf⟩ := Option.isSome_iff_exists.1 hfails
    exact ⟨before, s, later, failing, hsplit,
      ((h.after before).run s).outcome_eq_failed_iff.2 hf⟩
  · rintro ⟨before, s, later, failing, rfl, hf⟩
    refine ⟨s, by simp, ?_⟩
    rw [((h.after before).run s).outcome_eq_failed_iff.1 hf]
    rfl

/-- A stage that is done has all the stages behind it done. -/
theorem Sound.done_required (h : b.Sound g) {stage t : Stage} (hd : b.Done g stage)
    (ht : t ∈ stage.required) : b.Done g t := by
  rcases Stage.mem_required.1 ht with rfl | ⟨u, hu, ht⟩
  · exact hd
  · exact h.done_required (h.done_inputs hd hu) ht
termination_by stage.required.length
decreasing_by exact Stage.length_required_lt hu

/-- A stage that fails leaves nothing in any state, and no stage that needs it does. -/
theorem Sound.not_done_of_failing (h : b.Sound g) {stages : List Stage} {failing t : Stage}
    (hf : g.failing stages = some failing) (ht : failing ∈ t.required) : ¬ b.Done g t := by
  intro hd
  have hverdict := h.verdict_eq_nil (h.done_required hd ht)
  simpa [hverdict] using List.find?_some hf

theorem Sound.exists_order (h : b.Sound g) {m : SlotMap} (hm : b.slots = some m) :
    ∃ order, b.order = some order ∧ g.normalize.graph.allocate order = .ok m := by
  obtain ⟨ho, hslots⟩ := h.slots m hm
  obtain ⟨order, ho⟩ := Option.isSome_iff_exists.1 ho
  exact ⟨order, ho, (Graph.normalizedSlots_of_order (h.order order ho).2.2).symm.trans hslots⟩

/-- What a state keeps of the last three stages, where one that they need fails on the graph. -/
theorem Sound.absent_of_failing (h : b.Sound g) {stages : List Stage} {failing : Stage}
    (hf : g.failing stages = some failing) :
    (failing ∈ Stage.order.required → b.order = none) ∧
    (failing ∈ Stage.allocate.required → b.slots = none) ∧
    (failing ∈ Stage.codegen.required → b.program = none) :=
  ⟨fun ht => Option.not_isSome_iff_eq_none.1 (h.not_done_of_failing (t := .order) hf ht),
    fun ht => Option.not_isSome_iff_eq_none.1 (h.not_done_of_failing (t := .allocate) hf ht),
    fun ht => Option.not_isSome_iff_eq_none.1 (h.not_done_of_failing (t := .codegen) hf ht)⟩

end Build

/-- However often a state is built, and for whichever stages: a run never lacks an artifact
and ends as it would on a new state; what the state keeps is what the graph gives; a stage
that fails, and those after it, never leave an order, slots or a program; and the diagnostics
grow by one error for each run that fails. -/
theorem rebuilds_stay_sound (g : Graph) (earlier : List Stage) (stage : Stage) :
    let start : Build := { graph := g }
    let b := start.after earlier
    let r := b.run stage
    let n := g.normalize.graph
    (∀ artifact, r.outcome ≠ .lacking artifact) ∧
    r.outcome = (start.run stage).outcome ∧
    (∀ x, b.normalized = some x → x = g.normalize) ∧
    b.fanInCert = b.normalized.map (fun x => x.graph.fanInCert) ∧
    (∀ order, b.order = some order → n.evaluationOrder = .ok order) ∧
    b.orderCert = b.order.map n.orderCert ∧
    (∀ m, b.slots = some m → ∃ order, b.order = some order ∧ n.allocate order = .ok m) ∧
    (∀ p, b.program = some p → compile g = .ok p) ∧
    (b.program.isSome → b.slots.isSome) ∧ (b.slots.isSome → b.order.isSome) ∧
    (b.order.isSome → b.normalized.isSome) ∧
    (∀ failing, r.outcome = .failed failing → ∀ runs,
      (failing ∈ Stage.order.required → (start.after runs).order = none) ∧
      (failing ∈ Stage.allocate.required → (start.after runs).slots = none) ∧
      (failing ∈ Stage.codegen.required → (start.after runs).program = none)) ∧
    (r.outcome = .done → r.build.diagnostics = b.diagnostics) ∧
    (∀ failing, r.outcome = .failed failing →
      ∃ d, d.isError = true ∧ r.build.diagnostics = b.diagnostics ++ [d]) ∧
    (b.hasError = true ↔ ∃ before s later failing, earlier = before ++ s :: later ∧
      ((start.after before).run s).outcome = .failed failing) := by
  intro start b r n
  have hstart : start.Sound g := Build.sound_start g
  have hb : b.Sound g := hstart.after earlier
  have hr : Build.Ended b g stage.required r := hb.run stage
  have hsame : r.outcome = (start.run stage).outcome := by
    rw [hr.outcome, (hstart.run stage).outcome]
  refine ⟨hr.not_lacking, hsame, hb.normalized, hb.fanInCert, fun o ho => (hb.order o ho).2.2,
    hb.orderCert, fun m hm => hb.exists_order hm, fun p hp => (hb.program p hp).2, ?_, ?_, ?_,
    fun failing hf runs => (hstart.after runs).absent_of_failing (hr.outcome_eq_failed_iff.1 hf),
    hr.diagnostics_of_done, fun failing hf => hr.diagnostics_of_failed hf,
    hstart.hasError_after_iff rfl earlier⟩
  · intro hp
    obtain ⟨p, hp⟩ := Option.isSome_iff_exists.1 hp
    exact (hb.program p hp).1
  · intro hm
    obtain ⟨m, hm⟩ := Option.isSome_iff_exists.1 hm
    exact (hb.slots m hm).1
  · intro ho
    obtain ⟨order, ho⟩ := Option.isSome_iff_exists.1 ho
    exact (hb.order order ho).1

end LogicWiring
