-- The program: reads its arguments and the project file, and does what the
-- command line decides.
import LogicWiring.CommandLine

namespace LogicWiring

/-- An option and its value may be one argument, with an equals sign between them. -/
def splitArgument (arg : String) : List String :=
  match ["--emit", "--board", "--output"].find? fun name => arg.startsWith (name ++ "=") with
  | some name => [name, (arg.drop (name.length + 1)).toString]
  | none => [arg]

/-- The choices that arguments make, after those made so far. An argument that is no
option names the project. -/
def choicesOf (c : Choices) : List String → Option Choices
  | [] => if c.project = "" then none else some c
  | "--verbose" :: rest => choicesOf c rest
  | "-o" :: path :: rest => choicesOf { c with output := some path } rest
  | "--output" :: path :: rest => choicesOf { c with output := some path } rest
  | "--board" :: board :: rest => choicesOf { c with board := some board } rest
  | "--emit" :: name :: rest =>
    match Emission.ofName? name with
    | some emission => choicesOf { c with emission } rest
    | none => none
  | arg :: rest =>
    if arg.startsWith "-" || c.project ≠ "" then none
    else choicesOf { c with project := arg } rest

/-- Reads the project, and prints and writes the result of the run. -/
def runWith (args : List String) : IO UInt32 := do
  match choicesOf { project := "" } (args.flatMap splitArgument) with
  | none =>
    IO.eprintln "usage: logicc PROJECT [--emit STAGE] [--board NAME] [-o FILE] [--verbose]"
    return 2
  | some choices =>
    let project ← try some <$> IO.FS.readBinFile choices.project catch _ => pure none
    let files : Files := { project, outputWritable := true }
    let result := choices.run files
    for m in result.messages do
      IO.eprintln m
    match result.output with
    | none => return result.exit
    | some (file?, data) =>
      try
        match file? with
        | none =>
          let stdout ← IO.getStdout
          stdout.write data.toByteArray
          stdout.flush
        | some path => IO.FS.writeBinFile path data.toByteArray
        return result.exit
      catch _ =>
        IO.eprintln (message ("error: " ++ files.refusal))
        return 2

end LogicWiring

def main (args : List String) : IO UInt32 := LogicWiring.runWith args
