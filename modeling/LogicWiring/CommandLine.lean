-- The command line as a function: from the project file and the choices of
-- the user to the exit code, the messages and what is written where.
import LogicWiring.Build
import LogicWiring.Listing
import LogicWiring.ByteText
import LogicWiring.Drawing
import LogicWiring.Provenance

namespace LogicWiring

/-! ## Choices -/

/-- What is written out. -/
inductive Emission
  | bytes | csv | frame | cArray | asm | order | slots | dot | buildInfo
  deriving DecidableEq, Repr

namespace Emission

def all : List Emission := [bytes, csv, frame, cArray, asm, order, slots, dot, buildInfo]

def name : Emission → String
  | bytes => "bytes"
  | csv => "csv"
  | frame => "frame"
  | cArray => "c-array"
  | asm => "asm"
  | order => "order"
  | slots => "slots"
  | dot => "dot"
  | buildInfo => "build-info"

def ofName? (s : String) : Option Emission := all.find? fun e => e.name = s

/-- The last stage that has to run for it. -/
def stage : Emission → Stage
  | order => .order
  | slots | dot => .allocate
  | _ => .codegen

/-- Not fit for a terminal. -/
def isBinary : Emission → Bool
  | bytes | frame => true
  | _ => false

/-- The name in the message that asks for a destination. -/
def binaryName : Emission → String
  | frame => "Frame"
  | _ => "Bytes"

end Emission

/-- Where the output goes: a dash, or nothing, is the standard output. -/
structure Choices where
  project : String
  emission : Emission := .csv
  board : Option String := none
  output : Option String := none
  deriving DecidableEq, Repr

/-- Whether nothing but slashes, and a dot after any of them, is left of a path. The flag says
that a slash stands right before. -/
def namesNothing : Bool → List Char → Bool
  | _, [] => true
  | _, '/' :: rest => namesNothing true rest
  | true, '.' :: rest => namesNothing false rest
  | _, _ => false

/-- Whether a path is a dash. -/
def isDash (path : String) : Bool :=
  match path.toList with
  | '-' :: rest => namesNothing false rest
  | _ => false

/-- The output file, unless the output goes to the standard output. -/
def Choices.file? (c : Choices) : Option String := c.output.filter fun path => !isDash path

/-! ## Output -/

def textBytes (s : String) : List UInt8 := s.toByteArray.toList

/-- A line break after each item. -/
def linesOf (items : List String) : String := String.join (items.map fun s => s ++ "\n")

/-- What is written out after a build that succeeded. -/
def Emission.render (e : Emission) (b : Build) (text : String) :
    Except Diagnostic (List UInt8) :=
  let graph := b.workingGraph
  let program : Except Diagnostic Program :=
    match b.program with
    | some p => .ok p
    | none => .error { level := .error, message := "no program was produced" }
  match e with
  | .order => .ok (textBytes (linesOf (b.order.elim [] graph.idsOf)))
  | .slots =>
    let assignments := b.slots.elim [] (·.assignments graph)
    .ok (textBytes (linesOf (assignments.map fun (id, slot) => slotText slot ++ "\t" ++ id)))
  | .dot => .ok (textBytes (graph.drawing b.slots))
  | .bytes => program.map (·.bytes)
  | .csv => program.map fun p => textBytes (commaText p.bytes ++ "\n")
  | .frame => do
    let p ← program
    (LogicWiring.frame p.bytes).mapError FrameError.report
  | .cArray => program.map fun p => textBytes (arrayText "logic_program" p.bytes)
  | .asm => do
    let p ← program
    match decode p.bytes with
    | .error e => .error { level := .error, message := e.message }
    | .ok is => .ok (textBytes (listing is))
  | .buildInfo => program.map fun p => textBytes (Provenance.ofProgram text p).text

/-! ## A run -/

/-- The project file, and whether the output can be written to where it goes, with the
words of the system if it cannot. -/
structure Files where
  project : Option ByteArray
  outputWritable : Bool
  refusal : String := "No such file or directory (os error 2)"

/-- What a run leaves: the exit code, the messages, and the output with its file if it
does not go to the standard output. -/
structure Result where
  exit : UInt32
  messages : List String
  output : Option (Option String × List UInt8) := none

def message (s : String) : String := "logicc: " ++ s

def failure (messages : List String) (exit : UInt32) (s : String) : Result where
  exit := exit
  messages := messages ++ [message s]

/-- Writes the output, all of it or nothing. -/
def Choices.write (c : Choices) (files : Files) (messages : List String) (data : List UInt8) :
    Result :=
  if files.outputWritable then { exit := 0, messages, output := some (c.file?, data) }
  else failure messages 2 ("error: " ++ files.refusal)

/-- Compiles a project and writes what was asked for. Messages come before the output. -/
def Choices.compile (c : Choices) (files : Files) (text : String) (p : Project) : Result :=
  let warnings := p.warnings.map fun d => message d.text
  let run := Build.run { graph := p.graph } c.emission.stage
  let messages := warnings ++ run.reports.flatMap fun (_, ds) => ds.map fun d => message d.text
  match run.outcome with
  | .done =>
    match c.emission.render run.build text with
    | .error d => failure messages 1 d.text
    | .ok data => c.write files messages data
  | _ => { exit := 1, messages }

/-- Binary output needs a destination, and this is checked before the project is read. -/
def Choices.run (c : Choices) (files : Files) : Result :=
  if c.emission.isBinary && c.output.isNone then
    failure [] 2 ("error: --emit " ++ c.emission.binaryName ++
      " writes binary; pass -o FILE (or -o - for stdout)")
  else
    match files.project with
    | none => failure [] 2 ("error: " ++ c.project ++ ": No such file or directory (os error 2)")
    | some data =>
      match String.fromUTF8? data with
      | none => failure [] 2 ("error: " ++ c.project ++ ": stream did not contain valid UTF-8")
      | some text =>
        match loadProject text c.board with
        | .error e => failure [] 2 e.report.text
        | .ok p => c.compile files text p

end LogicWiring
