-- Where a program comes from: the digests of the project and the program,
-- the size of the program, and the version of the compiler.
import LogicWiring.Sha256
import LogicWiring.Program
import LogicWiring.Json.Value

namespace LogicWiring

def compilerVersion : String := "0.3.1"

structure Provenance where
  projectHash : String
  programHash : String
  programLength : Nat
  slotCount : Nat
  version : String := compilerVersion
  deriving DecidableEq, Repr

namespace Provenance

def ofProgram (projectText : String) (p : Program) : Provenance where
  projectHash := Sha256.hex projectText.toByteArray.toList
  programHash := Sha256.hex p.bytes
  programLength := p.bytes.length
  slotCount := p.slotCount

/-- The members on a line each. Names that are texts, and values that are texts or numbers, can
always be written, so there is no failure here. -/
def text (p : Provenance) : String :=
  Json.Value.renderLines [
    ("project_hash", .text p.projectHash),
    ("program_hash", .text p.programHash),
    ("program_len", .natural p.programLength),
    ("slot_count", .natural p.slotCount),
    ("compiler_version", .text p.version)]

end Provenance

end LogicWiring
