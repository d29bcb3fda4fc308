-- What can be written out for a graph. Each kind of output needs the stages up
-- to one of them, and these fail on some graphs. Main statements:
-- `Emission.render_eq_ok_iff` and `Emission.render_eq_error_iff`, once they are
-- done only a packet can be refused.
import LogicWiring.CommandLine
import LogicWiring.Proofs.Acceptance
import LogicWiring.Proofs.BuildInfo
import LogicWiring.Proofs.Builds
import LogicWiring.Proofs.Compiled
import LogicWiring.Proofs.Framing

namespace LogicWiring

/-! ## Stages of a graph -/

namespace Graph

variable {g : Graph}

theorem failing_eq_none_iff {stages : List Stage} :
    g.failing stages = none ↔ ∀ s ∈ stages, g.verdict s = [] := by
  simp [failing]

theorem failureReport_eq_nil {α : Type} {x : Except CompileError α} :
    failureReport x = [] ↔ ∃ a, x = .ok a := by
  cases x <;> simp [failureReport]

theorem verdict_order_iff : g.verdict .order = [] ↔ ¬ g.Cyclic := by
  unfold verdict
  rw [failureReport_eq_nil, exists_order_normalize_iff]

/-- The number of slots that a graph asks for, those of its merges among them. -/
def slotDemand (g : Graph) : Nat := g.producerCount + g.normalize.merges.length

theorem producerCount_eq_slotDemand : g.normalize.graph.producerCount = g.slotDemand := by
  unfold slotDemand
  rw [producerCount_normalize, ← g.merges_join.length_eq]
  rfl

theorem verdict_allocate_iff (h : ¬ g.Cyclic) :
    g.verdict .allocate = [] ↔ ¬ 255 < g.slotDemand := by
  obtain ⟨order, ho⟩ := exists_order_normalize_iff.2 h
  unfold verdict
  rw [failureReport_eq_nil, normalizedSlots_of_order ho, ← producerCount_eq_slotDemand]
  constructor
  · rintro ⟨m, hm⟩ hlt
    have hoverflow := (@allocate_eq_overflow_iff _ order _ _).2 ⟨hlt, rfl, rfl⟩
    cases hm.symm.trans hoverflow
  · intro hle
    exact allocate_of_le order (Nat.le_of_not_lt hle)

/-- The last stage says nothing exactly if there is a program, and then the others do not. -/
theorem failing_codegen_iff : g.failing [.order, .allocate, .codegen] = none ↔
    ¬ ∃ e, compile g = .error e := by
  cases h : compile g with
  | ok p => simp [failing_of_compile_ok h]
  | error e => simp [(failing_of_compile_error h).1]

end Graph

/-- The stages up to the last one that the output needs fail on the graph. -/
def Emission.FailsOn (e : Emission) (g : Graph) : Prop :=
  match e with
  | .order => g.Cyclic
  | .slots | .dot => g.Cyclic ∨ 255 < g.slotDemand
  | .bytes | .csv | .frame | .cArray | .asm | .buildInfo => ∃ err, compile g = .error err

theorem Emission.failing_eq_none_iff {e : Emission} {g : Graph}
    (hpass : g.verdict .normalize = []) :
    g.failing e.stage.required = none ↔ ¬ e.FailsOn g := by
  have horder : g.failing Stage.order.required = none ↔ ¬ g.Cyclic := by
    rw [Graph.failing_eq_none_iff, ← Graph.verdict_order_iff]
    simp [Stage.required, Stage.all, hpass]
  have hallocate : g.failing Stage.allocate.required = none ↔
      ¬ (g.Cyclic ∨ 255 < g.slotDemand) := by
    have hstages : g.failing Stage.allocate.required = none ↔
        g.verdict .order = [] ∧ g.verdict .allocate = [] := by
      rw [Graph.failing_eq_none_iff]
      simp [Stage.required, Stage.all, hpass]
    rw [hstages, not_or, Graph.verdict_order_iff]
    exact and_congr_right Graph.verdict_allocate_iff
  have hcodegen : g.failing Stage.codegen.required = none ↔ ¬ ∃ err, compile g = .error err := by
    show g.failing (.normalize :: [.order, .allocate, .codegen]) = none ↔ _
    rw [Build.failing_cons_of_nil hpass, Graph.failing_codegen_iff]
  cases e with
  | order => exact horder
  | slots | dot => exact hallocate
  | _ => exact hcodegen

/-! ## Lines -/

theorem toList_loop_eq (bs : ByteArray) (i : Nat) (r : List UInt8) :
    ByteArray.toList.loop bs i r = r.reverse ++ bs.data.toList.drop i := by
  fun_induction ByteArray.toList.loop bs i r with
  | case1 i r hlt ih =>
    have hi : i < bs.data.toList.length := by simpa using hlt
    have hget : bs.get! i = bs.data.toList[i] := getElem!_pos bs.data i hi
    rw [ih, List.drop_eq_getElem_cons hi, hget]
    simp
  | case2 i r hge =>
    have hi : bs.data.toList.length ≤ i := by simpa using hge
    rw [List.drop_eq_nil_of_le hi, List.append_nil]

theorem textBytes_eq (s : String) : textBytes s = s.toByteArray.data.toList := by
  rw [textBytes, ByteArray.toList, toList_loop_eq]
  simp

theorem textBytes_append (s t : String) : textBytes (s ++ t) = textBytes s ++ textBytes t := by
  simp [textBytes_eq]

/-- A line break is one byte after the line. -/
theorem textBytes_line (line : String) : textBytes (line ++ "\n") = textBytes line ++ [10] := by
  have hbreak : "\n".toByteArray.data.toList = [10] := by decide
  simp only [textBytes_eq, String.toByteArray_append, ByteArray.toList_data_append, hbreak]

/-- The bytes of lines, each with the byte of its line break. -/
def lineBytes (lines : List String) : List UInt8 :=
  lines.flatMap fun line => line.toByteArray.toList ++ [10]

theorem textBytes_linesOf (lines : List String) : textBytes (linesOf lines) = lineBytes lines := by
  induction lines with
  | nil => simp [linesOf, lineBytes, textBytes_eq]
  | cons line rest ih =>
    have hsplit : linesOf (line :: rest) = (line ++ "\n") ++ linesOf rest := by simp [linesOf]
    rw [hsplit, textBytes_append, textBytes_line, ih]
    rfl

/-! ## Output -/

/-- What is written out for the graph of a project, each time from what the stages give for
that graph. -/
inductive Emission.Renders (text : String) (g : Graph) : Emission → List UInt8 → Prop
  | order {order : List Nat} (ho : g.normalize.graph.evaluationOrder = .ok order) :
    Renders text g .order (lineBytes (order.map g.normalize.graph.idAt))
  | slots {order : List Nat} {m : SlotMap} (ho : g.normalize.graph.evaluationOrder = .ok order)
    (hm : g.normalize.graph.allocate order = .ok m) :
    Renders text g .slots (lineBytes ((m.assignments g.normalize.graph).map
      fun (id, slot) => "v" ++ slot.toNat.repr ++ "\t" ++ id))
  | dot {order : List Nat} {m : SlotMap} (ho : g.normalize.graph.evaluationOrder = .ok order)
    (hm : g.normalize.graph.allocate order = .ok m) :
    Renders text g .dot (g.normalize.graph.drawing (some m)).toByteArray.toList
  | bytes {p : Program} (hp : compile g = .ok p) : Renders text g .bytes p.bytes
  | csv {p : Program} (hp : compile g = .ok p) : Renders text g .csv (lineBytes [commaText p.bytes])
  | frame {p : Program} {packet : List UInt8} (hp : compile g = .ok p)
    (hpacket : LogicWiring.frame p.bytes = .ok packet) : Renders text g .frame packet
  | cArray {p : Program} (hp : compile g = .ok p) :
    Renders text g .cArray (arrayText "logic_program" p.bytes).toByteArray.toList
  | asm {p : Program} {is : List PlacedInstruction} (hp : compile g = .ok p)
    (his : decode p.bytes = .ok is) : Renders text g .asm (listing is).toByteArray.toList
  | buildInfo {p : Program} (hp : compile g = .ok p) :
    Renders text g .buildInfo (lineBytes (buildInfoLines text p))

/-- A packet is asked for, and the program does not fit into one. -/
def Emission.TooLong (e : Emission) (g : Graph) : Prop :=
  e = .frame ∧ ∃ p, compile g = .ok p ∧ 255 < p.bytes.length

namespace Emission

variable {e : Emission} {g : Graph} {text : String} {data : List UInt8}

/-- What can be written out is from a graph that does not fail. -/
theorem Renders.not_fails (h : e.Renders text g data) : ¬ (e.FailsOn g ∨ e.TooLong g) := by
  have hacyclic : ∀ {order}, g.normalize.graph.evaluationOrder = .ok order → ¬ g.Cyclic :=
    fun ho => Graph.exists_order_normalize_iff.1 ⟨_, ho⟩
  have hcompiles : ∀ {p}, compile g = .ok p → ¬ ∃ err, compile g = .error err := by
    intro p hp herr
    simp [hp] at herr
  rintro (hfails | ⟨rfl, p, hp, hlt⟩)
  · cases h with
    | order ho => exact hacyclic ho hfails
    | slots ho hm | dot ho hm =>
      rcases hfails with hcyclic | hlt
      · exact hacyclic ho hcyclic
      · rw [← Graph.producerCount_eq_slotDemand] at hlt
        rw [Graph.allocate_eq_overflow_iff.2 ⟨hlt, rfl, rfl⟩] at hm
        cases hm
    | bytes hp | csv hp | frame hp | cArray hp | asm hp | buildInfo hp =>
      exact hcompiles hp hfails
  · cases h with
    | frame hp' hpacket =>
      cases hp.symm.trans hp'
      exact absurd (frame_eq_ok_iff.1 hpacket).1 (Nat.not_le.2 hlt)

/-- There is one output at most. -/
theorem Renders.unique {data' : List UInt8} (h : e.Renders text g data)
    (h' : e.Renders text g data') : data = data' := by
  cases h with
  | order ho =>
    cases h' with
    | order ho' => cases ho.symm.trans ho'; rfl
  | slots ho hm =>
    cases h' with
    | slots ho' hm' => cases ho.symm.trans ho'; cases hm.symm.trans hm'; rfl
  | dot ho hm =>
    cases h' with
    | dot ho' hm' => cases ho.symm.trans ho'; cases hm.symm.trans hm'; rfl
  | frame hp hpacket =>
    cases h' with
    | frame hp' hpacket' => cases hp.symm.trans hp'; cases hpacket.symm.trans hpacket'; rfl
  | asm hp his =>
    cases h' with
    | asm hp' his' => cases hp.symm.trans hp'; cases his.symm.trans his'; rfl
  | bytes hp | csv hp | cArray hp | buildInfo hp =>
    cases h'
    rename_i p' hp'
    cases hp.symm.trans hp'
    rfl

/-- Once the last stage is done, only a packet can be refused. A program is there where one is
asked for, and it can be listed, since it can be decoded. -/
theorem render_of_done {b : Build} (text : String) (hb : b.Sound g) (hd : b.Done g e.stage) :
    (e = .frame ∧ ∃ p, compile g = .ok p ∧ 255 < p.bytes.length ∧
      e.render b text = .error (FrameError.tooLong p.bytes.length 255).report) ∨
    ∃ data, e.render b text = .ok data ∧ e.Renders text g data := by
  -- every output needs the first stage, so the graph that is looked at is the normalized one
  have hgraph : b.workingGraph = g.normalize.graph := by
    apply Build.Sound.workingGraph (hb.done_required hd _)
    cases e <;> decide
  have hslots : b.Done g .allocate → ∃ order m, b.slots = some m ∧
      g.normalize.graph.evaluationOrder = .ok order ∧
      g.normalize.graph.allocate order = .ok m := by
    intro hd
    obtain ⟨m, hm⟩ := Option.isSome_iff_exists.1 hd
    obtain ⟨order, ho, ha⟩ := hb.exists_order hm
    exact ⟨order, m, hm, (hb.order order ho).2.2, ha⟩
  have hprogram : b.Done g .codegen → ∃ p, b.program = some p ∧ compile g = .ok p := by
    intro hd
    obtain ⟨p, hp⟩ := Option.isSome_iff_exists.1 hd
    exact ⟨p, hp, (hb.program p hp).2⟩
  cases e with
  | order =>
    obtain ⟨order, ho⟩ := Option.isSome_iff_exists.1 hd
    refine .inr ⟨_, ?_, .order (hb.order order ho).2.2⟩
    simp [render, hgraph, ho, textBytes_linesOf, Graph.idsOf]
  | slots =>
    obtain ⟨order, m, hm, ho, ha⟩ := hslots hd
    refine .inr ⟨_, ?_, .slots ho ha⟩
    simp [render, hgraph, hm, textBytes_linesOf, slotText]
  | dot =>
    obtain ⟨order, m, hm, ho, ha⟩ := hslots hd
    refine .inr ⟨_, ?_, .dot ho ha⟩
    simp [render, hgraph, hm, textBytes]
  | bytes =>
    obtain ⟨p, hb, hp⟩ := hprogram hd
    refine .inr ⟨_, ?_, .bytes hp⟩
    simp [render, hb, Except.map]
  | csv =>
    obtain ⟨p, hb, hp⟩ := hprogram hd
    refine .inr ⟨_, ?_, .csv hp⟩
    have hline : commaText p.bytes ++ "\n" = linesOf [commaText p.bytes] := by simp [linesOf]
    simp [render, hb, Except.map, hline, textBytes_linesOf]
  | cArray =>
    obtain ⟨p, hb, hp⟩ := hprogram hd
    refine .inr ⟨_, ?_, .cArray hp⟩
    simp [render, hb, Except.map, textBytes]
  | buildInfo =>
    obtain ⟨p, hb, hp⟩ := hprogram hd
    refine .inr ⟨_, ?_, .buildInfo hp⟩
    simp [render, hb, Except.map, Provenance.text_ofProgram, textBytes_linesOf]
  | asm =>
    obtain ⟨p, hb, hp⟩ := hprogram hd
    obtain ⟨order, m, modes, body, hcompiled⟩ := compiled_of_compile hp
    refine .inr ⟨_, ?_, .asm hp hcompiled.decode_bytes⟩
    simp [render, hb, hcompiled.decode_bytes, bind, Except.bind, textBytes]
  | frame =>
    obtain ⟨p, hb, hp⟩ := hprogram hd
    by_cases hlt : 255 < p.bytes.length
    · refine .inl ⟨rfl, p, hp, hlt, ?_⟩
      have hpacket : LogicWiring.frame p.bytes = .error (.tooLong p.bytes.length 255) := if_pos hlt
      simp [render, hb, hpacket, bind, Except.bind, Except.mapError]
    · have hpacket := frame_eq_ok_iff.2 ⟨Nat.le_of_not_lt hlt, rfl⟩
      refine .inr ⟨_, ?_, .frame hp hpacket⟩
      simp [render, hb, hpacket, bind, Except.bind, Except.mapError]

section

variable {b : Build} (hb : b.Sound g) (hd : b.Done g e.stage)
include hb hd

/-- What comes out once the last stage is done is what is to be written out. -/
theorem render_eq_ok_iff : e.render b text = .ok data ↔ e.Renders text g data := by
  rcases render_of_done text hb hd with ⟨hframe, p, hp, hlt, hrender⟩ | ⟨data', hrender, hdata⟩
  · rw [hrender]
    exact iff_of_false (by simp) fun hdata => hdata.not_fails (.inr ⟨hframe, p, hp, hlt⟩)
  · rw [hrender, Except.ok.injEq]
    exact ⟨fun heq => heq ▸ hdata, hdata.unique⟩

/-- Nothing is refused but a packet, and the message gives the number of its bytes. -/
theorem render_eq_error_iff {d : Diagnostic} : e.render b text = .error d ↔
    e = .frame ∧ ∃ p, compile g = .ok p ∧ 255 < p.bytes.length ∧
      d = (FrameError.tooLong p.bytes.length 255).report := by
  rcases render_of_done text hb hd with ⟨hframe, p, hp, hlt, hrender⟩ | ⟨data, hrender, hdata⟩
  · rw [hrender, Except.error.injEq]
    constructor
    · rintro rfl
      exact ⟨hframe, p, hp, hlt, rfl⟩
    · rintro ⟨-, p', hp', -, rfl⟩
      cases hp.symm.trans hp'
      rfl
  · rw [hrender]
    refine iff_of_false (by simp) ?_
    rintro ⟨hframe, p, hp, hlt, -⟩
    exact hdata.not_fails (.inr ⟨hframe, p, hp, hlt⟩)

end

end Emission

end LogicWiring
