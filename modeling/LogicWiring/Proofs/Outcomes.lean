-- How a run of the program ends. The exit code tells a refusal, a project that
-- fails and a success apart, and what is written out is made from the graph of
-- the project alone, or it is nothing. Main statement: `run_exact`.
import LogicWiring.Proofs.Conversion
import LogicWiring.Proofs.Outputs
import LogicWiring.Proofs.SavedDocument
import Mathlib

namespace LogicWiring

/-! ## Projects -/

theorem fromUTF8?_eq_some_iff {data : ByteArray} {text : String} :
    String.fromUTF8? data = some text ↔ data = text.toByteArray := by
  unfold String.fromUTF8?
  constructor
  · intro h
    split at h
    · cases h
      rfl
    · cases h
  · rintro rfl
    split
    · rfl
    · rename_i h
      exact absurd text.isValidUTF8 h

/-- The project file is there, and holds this text. -/
def Files.Holds (files : Files) (text : String) : Prop := files.project = some text.toByteArray

/-- The output is binary, and it is not said where it goes. -/
def Choices.LacksOutput (c : Choices) : Prop :=
  (c.emission = .bytes ∨ c.emission = .frame) ∧ c.output = none

theorem Choices.lacksOutput_iff {c : Choices} :
    (c.emission.isBinary && c.output.isNone) = true ↔ c.LacksOutput := by
  unfold LacksOutput
  cases c.emission <;> simp [Emission.isBinary]

/-- The run gets as far as a project. -/
structure Choices.Loads (c : Choices) (files : Files) (text : String) (p : Project) : Prop where
  chosen : ¬ c.LacksOutput
  holds : files.Holds text
  loaded : loadProject text c.board = .ok p

/-- There is no project to work on. -/
inductive Choices.Refused (c : Choices) (files : Files) : Prop
  | lacksOutput (h : c.LacksOutput)
  | missing (h : files.project = none)
  | garbled {data : ByteArray} (hdata : files.project = some data)
    (h : ∀ text : String, data ≠ text.toByteArray)
  | unloaded {text : String} {err : LoadError} (htext : files.Holds text)
    (h : loadProject text c.board = .error err)

theorem Files.Holds.unique {files : Files} {text text' : String} (h : files.Holds text)
    (h' : files.Holds text') : text = text' :=
  String.toByteArray_inj.1 (Option.some.inj (h.symm.trans h'))

theorem Choices.Loads.not_refused {c : Choices} {files : Files} {text : String} {p : Project}
    (h : c.Loads files text p) : ¬ c.Refused files := by
  intro hrefused
  cases hrefused with
  | lacksOutput hlacks => exact h.chosen hlacks
  | missing hmissing => cases hmissing.symm.trans h.holds
  | garbled hdata hgarbled => exact hgarbled text (Option.some.inj (hdata.symm.trans h.holds))
  | unloaded htext herr =>
    rw [htext.unique h.holds, h.loaded] at herr
    cases herr

theorem Choices.Loads.unique {c : Choices} {files : Files} {text text' : String} {p p' : Project}
    (h : c.Loads files text p) (h' : c.Loads files text' p') : text = text' ∧ p = p' := by
  obtain rfl := h.holds.unique h'.holds
  exact ⟨rfl, Except.ok.inj (h.loaded.symm.trans h'.loaded)⟩

theorem not_synthetic_of_mapM {board : Option Board} {entries : List NodeEntry} {nodes : List Node}
    (h : entries.mapM (NodeEntry.toNode board) = .ok nodes) : ∀ n ∈ nodes, n.synthetic = false := by
  have hdrawn := Document.drawn_of_mapM h
  clear h
  induction hdrawn with
  | nil => simp
  | cons hn _ ih => exact List.forall_mem_cons.2 ⟨hn.2.1, ih⟩

/-- A project has the edges of its document, and no node in it is synthetic. -/
theorem drawn_of_loadProject {text : String} {chosen : Option String} {p : Project}
    (h : loadProject text chosen = .ok p) : ∃ d, Document.ofText text = .ok d ∧
      p.graph.edges.length = d.edges.length ∧ ∀ n ∈ p.graph.nodes, n.synthetic = false := by
  cases hd : Document.ofText text with
  | error fault => simp [loadProject, hd, bind, Except.bind, Except.mapError] at h
  | ok d =>
    rw [loadProject_of_document hd] at h
    obtain ⟨-, hnodes, hedges⟩ := Document.of_toProject h
    exact ⟨d, rfl, by simp [hedges], not_synthetic_of_mapM hnodes⟩

/-! ## Runs -/

/-- How a run ends: without a project, with a project that fails, or with its output, which
may not be accepted where it goes. -/
inductive Choices.Ends (c : Choices) (files : Files) (r : Result) : Prop
  | refused (h : c.Refused files) (hexit : r.exit = 2) (hout : r.output = none)
  | failed {text : String} {p : Project} (h : c.Loads files text p)
    (hfails : c.emission.FailsOn p.graph ∨ c.emission.TooLong p.graph)
    (hexit : r.exit = 1) (hout : r.output = none)
  | unwritten {text : String} {p : Project} {data : List UInt8} (h : c.Loads files text p)
    (hdata : c.emission.Renders text p.graph data) (hfull : files.outputWritable = false)
    (hexit : r.exit = 2) (hout : r.output = none)
  | written {text : String} {p : Project} {data : List UInt8} (h : c.Loads files text p)
    (hdata : c.emission.Renders text p.graph data) (hfree : files.outputWritable = true)
    (hexit : r.exit = 0) (hout : r.output = some (c.file?, data))

namespace Choices

variable {c : Choices} {files : Files}

/-- The choices and the file decide whether there is a project. -/
theorem run_cases (c : Choices) (files : Files) :
    (c.Refused files ∧ (c.run files).exit = 2 ∧ (c.run files).output = none) ∨
    ∃ text p, c.Loads files text p ∧ c.run files = c.compile files text p := by
  unfold run
  by_cases hlacks : c.LacksOutput
  · rw [if_pos (lacksOutput_iff.2 hlacks)]
    exact .inl ⟨.lacksOutput hlacks, rfl, rfl⟩
  · rw [if_neg (mt lacksOutput_iff.1 hlacks)]
    cases hproject : files.project with
    | none => exact .inl ⟨.missing hproject, rfl, rfl⟩
    | some data =>
      dsimp only
      cases htext : String.fromUTF8? data with
      | none =>
        refine .inl ⟨.garbled hproject fun text hdata => ?_, rfl, rfl⟩
        rw [fromUTF8?_eq_some_iff.2 hdata] at htext
        cases htext
      | some text =>
        have hholds : files.Holds text := by
          rw [Files.Holds, hproject, fromUTF8?_eq_some_iff.1 htext]
        dsimp only
        cases hload : loadProject text c.board with
        | error err => exact .inl ⟨.unloaded hholds hload, rfl, rfl⟩
        | ok p => exact .inr ⟨text, p, ⟨hlacks, hholds, hload⟩, rfl⟩

theorem refused_iff (c : Choices) (files : Files) :
    c.Refused files ↔ ¬ ∃ text p, c.Loads files text p := by
  constructor
  · rintro hrefused ⟨text, p, hloads⟩
    exact hloads.not_refused hrefused
  · intro hnone
    rcases c.run_cases files with ⟨hrefused, -⟩ | ⟨text, p, hloads, -⟩
    · exact hrefused
    · exact absurd ⟨text, p, hloads⟩ hnone

/-- The nodes of a project pass the check of the first stage. -/
theorem Loads.passes {text : String} {p : Project} (h : c.Loads files text p)
    (hsize : ∀ d, Document.ofText text = .ok d → d.edges.length < 2 ^ 32) :
    p.graph.verdict .normalize = [] := by
  obtain ⟨d, hd, hedges, hdrawn⟩ := drawn_of_loadProject h.loaded
  apply Graph.verdict_normalize_pass
  refine (Graph.fanInCert_normalize_iff (hedges ▸ hsize d hd)).2 fun n hn hs => ?_
  simp [hdrawn n hn] at hs

/-- The stages stop at a failure, or they leave all that the output is made from. -/
theorem Loads.built {text : String} {p : Project} (h : c.Loads files text p)
    (hsize : ∀ d, Document.ofText text = .ok d → d.edges.length < 2 ^ 32) :
    let run := Build.run { graph := p.graph } c.emission.stage
    (c.emission.FailsOn p.graph ∧ ∃ stage, run.outcome = .failed stage) ∨
    (¬ c.emission.FailsOn p.graph ∧ run.outcome = .done ∧ run.build.Sound p.graph ∧
      run.build.Done p.graph c.emission.stage) := by
  intro run
  have hr : Build.Ended _ p.graph c.emission.stage.required run :=
    (Build.sound_start p.graph).run c.emission.stage
  have hfailing := Emission.failing_eq_none_iff (e := c.emission) (h.passes hsize)
  by_cases hfails : c.emission.FailsOn p.graph
  · obtain ⟨stage, hstage⟩ := Option.ne_none_iff_exists'.1 (mt hfailing.1 (not_not.2 hfails))
    exact .inl ⟨hfails, stage, hr.outcome_eq_failed_iff.2 hstage⟩
  · have hnone := hfailing.2 hfails
    refine .inr ⟨hfails, ?_, hr.sound, ?_⟩
    · rw [hr.outcome, hnone]
      rfl
    · apply hr.done hnone
      cases c.emission <;> rfl

/-- From a project on, the stages decide, then the output, and last the place it goes to. -/
theorem Loads.ends {text : String} {p : Project} (h : c.Loads files text p)
    (hsize : ∀ d, Document.ofText text = .ok d → d.edges.length < 2 ^ 32) :
    c.Ends files (c.compile files text p) := by
  unfold compile
  dsimp only
  rcases h.built hsize with ⟨hfails, stage, houtcome⟩ | ⟨-, houtcome, hsound, hdone⟩
  · rw [houtcome]
    exact .failed h (.inl hfails) rfl rfl
  · rw [houtcome]
    rcases Emission.render_of_done text hsound hdone with
      ⟨hframe, prog, hprog, hlt, hrender⟩ | ⟨data, hrender, hdata⟩
    · rw [hrender]
      exact .failed h (.inr ⟨hframe, prog, hprog, hlt⟩) rfl rfl
    · rw [hrender]
      unfold write
      dsimp only
      cases hfiles : files.outputWritable with
      | false => exact .unwritten h hdata hfiles rfl rfl
      | true => exact .written h hdata hfiles rfl rfl

theorem run_ends (hsize : ∀ text d, files.Holds text → Document.ofText text = .ok d →
    d.edges.length < 2 ^ 32) : c.Ends files (c.run files) := by
  rcases c.run_cases files with ⟨hrefused, hexit, hout⟩ | ⟨text, p, hloads, hrun⟩
  · exact .refused hrefused hexit hout
  · rw [hrun]
    exact hloads.ends fun d => hsize text d hloads.holds

end Choices

/-! ## What is left behind -/

/-- What may be left of a path behind a dash: empty parts, and parts that are a dot. -/
inductive BlankParts : List Char → Prop
  | nil : BlankParts []
  | empty {rest : List Char} (h : BlankParts rest) : BlankParts ('/' :: rest)
  | dot {rest : List Char} (h : BlankParts rest) : BlankParts ('/' :: '.' :: rest)

theorem blankParts_cons_iff {a : Char} {rest : List Char} : BlankParts (a :: rest) ↔
    a = '/' ∧ (BlankParts rest ∨ ∃ rest', rest = '.' :: rest' ∧ BlankParts rest') := by
  constructor
  · rintro (_ | h | h)
    · exact ⟨rfl, .inl h⟩
    · exact ⟨rfl, .inr ⟨_, rfl, h⟩⟩
  · rintro ⟨rfl, h | ⟨rest', rfl, h⟩⟩
    · exact .empty h
    · exact .dot h

theorem namesNothing_iff (rest : List Char) :
    (namesNothing false rest = true ↔ BlankParts rest) ∧
    (namesNothing true rest = true ↔ BlankParts ('/' :: rest)) := by
  induction rest with
  | nil => simp [namesNothing, blankParts_cons_iff, BlankParts.nil]
  | cons a rest ih =>
    obtain ⟨hpart, hslash⟩ := ih
    by_cases ha : a = '/'
    · subst ha
      simp [namesNothing, hslash, blankParts_cons_iff]
    · by_cases hdot : a = '.'
      · subst hdot
        simp [namesNothing, hpart, blankParts_cons_iff]
      · simp [namesNothing, blankParts_cons_iff, ha, hdot]

theorem isDash_iff {path : String} :
    isDash path = true ↔ ∃ rest, path.toList = '-' :: rest ∧ BlankParts rest := by
  unfold isDash
  split
  · rename_i rest hpath
    simp [hpath, (namesNothing_iff rest).1]
  · rename_i hpath
    refine iff_of_false (by simp) ?_
    rintro ⟨rest, hrest, -⟩
    exact hpath rest hrest

/-- Where the output goes: to the standard output if nothing or a dash is given, else to the file
at the path. -/
inductive Choices.Sends (c : Choices) : Option String → Prop
  | unset (h : c.output = none) : Sends c none
  | dash {path : String} {rest : List Char} (h : c.output = some path)
    (hdash : path.toList = '-' :: rest) (hrest : BlankParts rest) : Sends c none
  | file {path : String} (h : c.output = some path)
    (hdash : ∀ rest, path.toList = '-' :: rest → ¬ BlankParts rest) : Sends c (some path)

theorem Choices.sends_file? (c : Choices) : c.Sends c.file? := by
  unfold file?
  cases houtput : c.output with
  | none => exact .unset houtput
  | some path =>
    by_cases hdash : isDash path = true
    · obtain ⟨rest, hpath, hrest⟩ := isDash_iff.1 hdash
      simp only [Option.filter, hdash, Bool.not_true]
      exact .dash houtput hpath hrest
    · simp only [Option.filter, hdash, Bool.not_false, if_true]
      exact .file houtput fun rest hpath hrest => hdash (isDash_iff.2 ⟨rest, hpath, hrest⟩)

theorem Choices.Sends.unique {c : Choices} {file? file?' : Option String} (h : c.Sends file?)
    (h' : c.Sends file?') : file? = file?' := by
  cases h with
  | unset h =>
    cases h' with
    | unset => rfl
    | dash h' | file h' => cases h.symm.trans h'
  | dash h hdash hrest =>
    cases h' with
    | unset => rfl
    | dash => rfl
    | file h' hno =>
      cases h.symm.trans h'
      exact absurd hrest (hno _ hdash)
  | file h hno =>
    cases h' with
    | unset h' => cases h.symm.trans h'
    | dash h' hdash hrest =>
      cases h.symm.trans h'
      exact absurd hrest (hno _ hdash)
    | file h' => cases h.symm.trans h'; rfl

/-- What is on the standard output after a run. -/
def Result.printed (r : Result) : List UInt8 :=
  match r.output with
  | some (none, data) => data
  | _ => []

/-- The contents of the files after a run, from those before it. -/
def Result.disk (r : Result) (before : String → Option (List UInt8)) :
    String → Option (List UInt8) :=
  match r.output with
  | some (some path, data) => Function.update before path (some data)
  | _ => before

/-- The output went to the file at this path, or to the standard output if there is none, and
nothing else changed. -/
def Result.Delivers (r : Result) (file? : Option String) (data : List UInt8) : Prop :=
  match file? with
  | none => r.printed = data ∧ ∀ before, r.disk before = before
  | some path => r.printed = [] ∧ ∀ before, r.disk before = Function.update before path (some data)

theorem Result.delivers_of_output {r : Result} {file? : Option String} {data : List UInt8}
    (h : r.output = some (file?, data)) : r.Delivers file? data := by
  unfold Delivers printed disk
  rw [h]
  cases file? <;> simp

theorem Result.untouched_of_output {r : Result} (h : r.output = none) :
    r.printed = [] ∧ ∀ before, r.disk before = before := by
  unfold printed disk
  rw [h]
  exact ⟨rfl, fun _ => rfl⟩

/-- What a run delivers is known from its project, the output for it and where this goes. -/
theorem Choices.Loads.delivered {c : Choices} {files : Files} {text : String} {p : Project}
    {data : List UInt8} {file? : Option String} {r : Result} (h : c.Loads files text p)
    (hdata : c.emission.Renders text p.graph data) (hsends : c.Sends file?)
    (hdelivers : ∃ text p data file?, c.Loads files text p ∧
      c.emission.Renders text p.graph data ∧ c.Sends file? ∧ r.Delivers file? data) :
    r.Delivers file? data := by
  obtain ⟨text', p', data', file?', h', hdata', hsends', hr⟩ := hdelivers
  obtain ⟨rfl, rfl⟩ := h.unique h'
  rw [hdata.unique hdata', hsends.unique hsends']
  exact hr

namespace Choices.Ends

variable {c : Choices} {files : Files} {r : Result}

theorem exit_eq_two_iff (h : c.Ends files r) : r.exit = 2 ↔ c.Refused files ∨
    files.outputWritable = false ∧
      ∃ text p data, c.Loads files text p ∧ c.emission.Renders text p.graph data := by
  cases h with
  | refused hrefused hexit hout => exact iff_of_true hexit (.inl hrefused)
  | failed hloads hfails hexit hout =>
    refine iff_of_false (by simp [hexit]) ?_
    rintro (hrefused | ⟨-, text, p, data, hloads', hdata⟩)
    · exact hloads.not_refused hrefused
    · obtain ⟨rfl, rfl⟩ := hloads.unique hloads'
      exact hdata.not_fails hfails
  | unwritten hloads hdata hfull hexit hout =>
    exact iff_of_true hexit (.inr ⟨hfull, _, _, _, hloads, hdata⟩)
  | written hloads hdata hfree hexit hout =>
    refine iff_of_false (by simp [hexit]) ?_
    rintro (hrefused | ⟨hfull, -⟩)
    · exact hloads.not_refused hrefused
    · simp [hfree] at hfull

theorem exit_eq_one_iff (h : c.Ends files r) : r.exit = 1 ↔ ∃ text p, c.Loads files text p ∧
    (c.emission.FailsOn p.graph ∨ c.emission.TooLong p.graph) := by
  cases h with
  | refused hrefused hexit hout =>
    refine iff_of_false (by simp [hexit]) ?_
    rintro ⟨text, p, hloads, -⟩
    exact hloads.not_refused hrefused
  | failed hloads hfails hexit hout => exact iff_of_true hexit ⟨_, _, hloads, hfails⟩
  | unwritten hloads hdata hfull hexit hout | written hloads hdata hfree hexit hout =>
    refine iff_of_false (by simp [hexit]) ?_
    rintro ⟨text, p, hloads', hfails⟩
    obtain ⟨rfl, rfl⟩ := hloads.unique hloads'
    exact hdata.not_fails hfails

theorem exit_eq_zero_iff (h : c.Ends files r) : r.exit = 0 ↔ files.outputWritable = true ∧
    ∃ text p data, c.Loads files text p ∧ c.emission.Renders text p.graph data := by
  cases h with
  | refused hrefused hexit hout =>
    refine iff_of_false (by simp [hexit]) ?_
    rintro ⟨-, text, p, data, hloads, -⟩
    exact hloads.not_refused hrefused
  | failed hloads hfails hexit hout =>
    refine iff_of_false (by simp [hexit]) ?_
    rintro ⟨-, text, p, data, hloads', hdata⟩
    obtain ⟨rfl, rfl⟩ := hloads.unique hloads'
    exact hdata.not_fails hfails
  | unwritten hloads hdata hfull hexit hout =>
    exact iff_of_false (by simp [hexit]) (by simp [hfull])
  | written hloads hdata hfree hexit hout => exact iff_of_true hexit ⟨hfree, _, _, _, hloads, hdata⟩

theorem exit_cases (h : c.Ends files r) : r.exit = 0 ∨ r.exit = 1 ∨ r.exit = 2 := by
  cases h <;> simp [*]

theorem delivers (h : c.Ends files r) (hexit : r.exit = 0) : ∃ text p data file?,
    c.Loads files text p ∧ c.emission.Renders text p.graph data ∧ c.Sends file? ∧
      r.Delivers file? data := by
  cases h with
  | refused _ hexit' _ | failed _ _ hexit' _ | unwritten _ _ _ hexit' _ =>
    simp [hexit'] at hexit
  | written hloads hdata _ _ hout =>
    exact ⟨_, _, _, _, hloads, hdata, c.sends_file?, Result.delivers_of_output hout⟩

theorem untouched (h : c.Ends files r) (hexit : r.exit ≠ 0) :
    r.printed = [] ∧ ∀ before, r.disk before = before := by
  cases h with
  | refused _ _ hout | failed _ _ _ hout | unwritten _ _ _ _ hout =>
    exact Result.untouched_of_output hout
  | written _ _ _ hexit' _ => exact absurd hexit' hexit

end Choices.Ends

/-- A run without a project ends with 2, and so does one whose output is not accepted; a run whose
stages fail, or whose program does not fit into a packet, ends with 1; and any other ends with 0.
Then the output is where it was asked for, and it is made from the graph of the project; else no
output is left anywhere. After the stages, the output comes out as it should, and nothing is
refused but a packet that is too long, with its length in the message. -/
theorem run_exact (c : Choices) (files : Files) (hsize : ∀ text d, files.Holds text →
    Document.ofText text = .ok d → d.edges.length < 2 ^ 32) :
    let r := c.run files
    (c.Refused files ↔ ¬ ∃ text p, c.Loads files text p) ∧
    (r.exit = 2 ↔ c.Refused files ∨ files.outputWritable = false ∧
      ∃ text p data, c.Loads files text p ∧ c.emission.Renders text p.graph data) ∧
    (r.exit = 1 ↔ ∃ text p, c.Loads files text p ∧
      (c.emission.FailsOn p.graph ∨ c.emission.TooLong p.graph)) ∧
    (r.exit = 0 ↔ files.outputWritable = true ∧
      ∃ text p data, c.Loads files text p ∧ c.emission.Renders text p.graph data) ∧
    (r.exit = 0 ∨ r.exit = 1 ∨ r.exit = 2) ∧
    (r.exit = 0 → ∃ text p data file?, c.Loads files text p ∧
      c.emission.Renders text p.graph data ∧ c.Sends file? ∧ r.Delivers file? data) ∧
    (r.exit ≠ 0 → r.printed = [] ∧ ∀ before, r.disk before = before) ∧
    ∀ text p, c.Loads files text p →
      let run := Build.run { graph := p.graph } c.emission.stage
      (∀ artifact, run.outcome ≠ .lacking artifact) ∧
      (run.outcome = .done ↔ ¬ c.emission.FailsOn p.graph) ∧
      (run.outcome = .done →
        (∀ data, c.emission.render run.build text = .ok data ↔
          c.emission.Renders text p.graph data) ∧
        ∀ d, c.emission.render run.build text = .error d ↔
          c.emission = .frame ∧ ∃ q, compile p.graph = .ok q ∧ 255 < q.bytes.length ∧
            d = (FrameError.tooLong q.bytes.length 255).report) := by
  intro r
  have hends : c.Ends files r := Choices.run_ends hsize
  refine ⟨c.refused_iff files, hends.exit_eq_two_iff, hends.exit_eq_one_iff,
    hends.exit_eq_zero_iff, hends.exit_cases, hends.delivers, hends.untouched,
    fun text p hloads => ?_⟩
  have hbuilt := hloads.built fun d => hsize text d hloads.holds
  dsimp only at hbuilt ⊢
  rcases hbuilt with ⟨hfails, stage, houtcome⟩ | ⟨hfails, houtcome, hsound, hdone⟩
  · simp [houtcome, hfails]
  · exact ⟨by simp [houtcome], by simp [houtcome, hfails], fun _ =>
      ⟨fun data => Emission.render_eq_ok_iff hsound hdone,
        fun d => Emission.render_eq_error_iff hsound hdone⟩⟩

/-! ## Runs of small projects -/

/-- A project file with this text. -/
def holding (text : String) (outputWritable : Bool) : Files where
  project := some text.toByteArray
  outputWritable := outputWritable

/-- Asks for an output of a project, without a board. -/
def asking (e : Emission) (output : Option String) : Choices where
  project := "project.json"
  emission := e
  output := output

theorem length_edges_holding (outputWritable : Bool) {text : String} {d : Document}
    (hd : Document.ofText text = .ok d) (hlt : d.edges.length < 2 ^ 32) :
    ∀ text' d', (holding text outputWritable).Holds text' → Document.ofText text' = .ok d' →
      d'.edges.length < 2 ^ 32 := by
  intro text' d' htext hd'
  obtain rfl : text' = text := htext.unique rfl
  cases hd.symm.trans hd'
  exact hlt

theorem loads_holding (outputWritable : Bool) {e : Emission} {output : Option String}
    {text : String} {d : Document} {p : Project} (hlacks : ¬ (asking e output).LacksOutput)
    (hd : Document.ofText text = .ok d) (hp : d.toProject none = .ok p) :
    (asking e output).Loads (holding text outputWritable) text p :=
  ⟨hlacks, rfl, (loadProject_of_document hd none).trans hp⟩

/-- An input that nothing reads. -/
def soloText : String :=
  "\x7b\"nodes\":[\x7b\"id\":\"a\",\"type\":\"inputNode\",\"data\":\x7b\"pin\":2\x7d\x7d]\x7d"

def solo : Graph where
  nodes := [{ id := "a", kind := .input (some 2) }]
  edges := []
  ids_nodup := by decide
  ends_known := by decide

theorem document_solo : Document.ofText soloText =
    .ok ⟨[⟨"a", "inputNode", { pin := some (.number 2) }⟩], [], none⟩ := by cbv

theorem loads_solo (outputWritable : Bool) : (asking .order (some "order.txt")).Loads
    (holding soloText outputWritable) soloText ⟨solo, none, []⟩ :=
  loads_holding _ (by simp [Choices.LacksOutput, asking]) document_solo (by cbv)

theorem renders_solo : Emission.Renders soloText solo .order [97, 10] := by
  have hsame : solo.normalize.graph = solo := Graph.ext_nodes_edges (by cbv) (by cbv)
  have horder : solo.normalize.graph.evaluationOrder = .ok [0] := by rw [hsame]; cbv
  have hbytes : lineBytes ([0].map solo.normalize.graph.idAt) = [97, 10] := by rw [hsame]; cbv
  exact hbytes ▸ .order horder

/-- An inverter that reads itself. -/
def loopText : String :=
  "\x7b\"nodes\":[\x7b\"id\":\"n\",\"type\":\"notNode\"\x7d]," ++
    "\"edges\":[\x7b\"source\":\"n\",\"target\":\"n\"\x7d]\x7d"

def looped : Graph where
  nodes := [{ id := "n", kind := .not }]
  edges := [{ source := "n", target := "n" }]
  ids_nodup := by decide
  ends_known := by decide

theorem document_looped : Document.ofText loopText =
    .ok ⟨[⟨"n", "notNode", {}⟩], [⟨none, "n", "out", "n", "in"⟩], none⟩ := by cbv

theorem loads_looped : (asking .order (some "order.txt")).Loads (holding loopText true) loopText
    ⟨looped, none, []⟩ :=
  loads_holding _ (by simp [Choices.LacksOutput, asking]) document_looped (by cbv)

theorem cyclic_looped : looped.Cyclic :=
  ⟨"n", .single ⟨_, List.mem_singleton_self _, rfl, rfl⟩⟩

/-- An input that an output follows. -/
def wireText : String :=
  "\x7b\"nodes\":[\x7b\"id\":\"x\",\"type\":\"inputNode\",\"data\":\x7b\"pin\":4\x7d\x7d," ++
    "\x7b\"id\":\"y\",\"type\":\"outputNode\",\"data\":\x7b\"pin\":5\x7d\x7d]," ++
    "\"edges\":[\x7b\"source\":\"x\",\"target\":\"y\"\x7d]\x7d"

def wire : Graph where
  nodes := [{ id := "x", kind := .input (some 4) }, { id := "y", kind := .output (some 5) }]
  edges := [{ source := "x", target := "y" }]
  ids_nodup := by decide
  ends_known := by decide

theorem document_wire : Document.ofText wireText =
    .ok ⟨[⟨"x", "inputNode", { pin := some (.number 4) }⟩,
      ⟨"y", "outputNode", { pin := some (.number 5) }⟩], [⟨none, "x", "out", "y", "in"⟩], none⟩ := by
  cbv

theorem loads_wire {e : Emission} {output : Option String}
    (hlacks : ¬ (asking e output).LacksOutput) :
    (asking e output).Loads (holding wireText true) wireText ⟨wire, none, []⟩ :=
  loads_holding _ hlacks document_wire (by cbv)

def wireProgram : Program where
  bytes := [1, 4, 2, 5, 3, 4, 0, 4, 5, 0]
  slotCount := 1
  bodyOffset := 4

theorem compile_wire : compile wire = .ok wireProgram := by
  have hsame : wire.normalize.graph = wire := Graph.ext_nodes_edges (by cbv) (by cbv)
  have hlive : wire.liveness [0, 1] = [true, true] := by decide
  have ho : wire.evaluationOrder = .ok [0, 1] := by cbv
  have hm : wire.allocate [0, 1] = .ok { slots := [some 0, none], count := 1 } := by cbv
  rw [compile_of_stages hsame ho hm, Graph.program, hlive]
  cbv

def wireInfo : List String := [
  "\x7b",
  "  \"project_hash\": \"a3fb08d1a9bdd07e3ea4a26f23329d3998fc045535d3026b88f1ac08e2c23ce7\",",
  "  \"program_hash\": \"0ec41c5678e5a2187bc40d2243bb5db7b3cb2c1c93e4c531e1eaf0dc884590e8\",",
  "  \"program_len\": 10,",
  "  \"slot_count\": 1,",
  "  \"compiler_version\": \"0.3.1\"",
  "\x7d"]

theorem buildInfoLines_wire : buildInfoLines wireText wireProgram = wireInfo := by
  decide +kernel

theorem runs_of_small_projects :
    (let r := (asking .order (some "order.txt")).run (holding soloText true)
     r.exit = 0 ∧ r.printed = [] ∧
       ∀ before, r.disk before = Function.update before "order.txt" (some [97, 10])) ∧
    (let r := (asking .order (some "order.txt")).run (holding soloText false)
     r.exit = 2 ∧ r.printed = [] ∧ ∀ before, r.disk before = before) ∧
    (let r := (asking .order (some "order.txt")).run (holding loopText true)
     r.exit = 1 ∧ r.printed = [] ∧ ∀ before, r.disk before = before) ∧
    (let r := (asking .frame (some "-")).run (holding wireText true)
     r.exit = 0 ∧ r.printed = [126, 10, 1, 4, 2, 5, 3, 4, 0, 4, 5, 0, 28] ∧
       ∀ before, r.disk before = before) ∧
    (let r := (asking .buildInfo none).run (holding wireText true)
     r.exit = 0 ∧ r.printed = lineBytes wireInfo ∧ ∀ before, r.disk before = before) ∧
    (let r := (asking .bytes none).run (holding wireText true)
     r.exit = 2 ∧ r.printed = [] ∧ ∀ before, r.disk before = before) := by
  have hsmall := fun outputWritable => length_edges_holding outputWritable document_solo (by decide)
  have hsmallWire := length_edges_holding true document_wire (by decide)
  refine ⟨?_, ?_, ?_, ?_, ?_, ?_⟩
  · intro r
    obtain ⟨-, -, -, hzero, -, hdelivers, -⟩ :=
      run_exact (asking .order (some "order.txt")) (holding soloText true) (hsmall true)
    have hexit : r.exit = 0 := hzero.2 ⟨rfl, _, _, _, loads_solo true, renders_solo⟩
    have hdash : ∀ rest, "order.txt".toList = '-' :: rest → ¬ BlankParts rest := by
      intro rest h
      cases h
    exact ⟨hexit, (loads_solo true).delivered renders_solo (.file rfl hdash) (hdelivers hexit)⟩
  · intro r
    obtain ⟨-, htwo, -, -, -, -, hnothing, -⟩ :=
      run_exact (asking .order (some "order.txt")) (holding soloText false) (hsmall false)
    have hexit : r.exit = 2 := htwo.2 (.inr ⟨rfl, _, _, _, loads_solo false, renders_solo⟩)
    exact ⟨hexit, hnothing (by rw [hexit]; decide)⟩
  · intro r
    obtain ⟨-, -, hone, -, -, -, hnothing, -⟩ :=
      run_exact (asking .order (some "order.txt")) (holding loopText true)
        (length_edges_holding true document_looped (by decide))
    have hexit : r.exit = 1 := hone.2 ⟨_, _, loads_looped, .inl cyclic_looped⟩
    exact ⟨hexit, hnothing (by rw [hexit]; decide)⟩
  · intro r
    obtain ⟨-, -, -, hzero, -, hdelivers, -⟩ :=
      run_exact (asking .frame (some "-")) (holding wireText true) hsmallWire
    have hload := @loads_wire .frame (some "-") (by simp [Choices.LacksOutput, asking])
    have hrenders : Emission.Renders wireText wire .frame
        [126, 10, 1, 4, 2, 5, 3, 4, 0, 4, 5, 0, 28] := .frame compile_wire (by decide)
    have hexit : r.exit = 0 := hzero.2 ⟨rfl, _, _, _, hload, hrenders⟩
    exact ⟨hexit, hload.delivered hrenders (.dash rfl rfl .nil) (hdelivers hexit)⟩
  · intro r
    obtain ⟨-, -, -, hzero, -, hdelivers, -⟩ :=
      run_exact (asking .buildInfo none) (holding wireText true) hsmallWire
    have hload := @loads_wire .buildInfo none (by simp [Choices.LacksOutput, asking])
    have hrenders : Emission.Renders wireText wire .buildInfo _ := .buildInfo compile_wire
    rw [buildInfoLines_wire] at hrenders
    have hexit : r.exit = 0 := hzero.2 ⟨rfl, _, _, _, hload, hrenders⟩
    exact ⟨hexit, hload.delivered hrenders (.unset rfl) (hdelivers hexit)⟩
  · intro r
    obtain ⟨-, htwo, -, -, -, -, hnothing, -⟩ :=
      run_exact (asking .bytes none) (holding wireText true) hsmallWire
    have hexit : r.exit = 2 := htwo.2 (.inl (.lacksOutput ⟨.inl rfl, rfl⟩))
    exact ⟨hexit, hnothing (by rw [hexit]; decide)⟩

end LogicWiring
