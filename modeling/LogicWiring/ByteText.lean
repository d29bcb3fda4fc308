-- Bytes as text: decimal numbers in a row, and an array for a C program.

namespace LogicWiring

def byteText (b : UInt8) : String := b.toNat.repr

/-- Decimal numbers with commas between them. -/
def commaText (bytes : List UInt8) : String := ",".intercalate (bytes.map byteText)

/-- The bytes in rows of sixteen; the last row may be shorter. -/
def byteRows (bytes : List UInt8) : List (List UInt8) :=
  match bytes with
  | [] => []
  | b :: rest => (b :: rest.take 15) :: byteRows (rest.drop 15)
termination_by bytes.length
decreasing_by
  simp only [List.length_drop, List.length_cons]
  omega

def rowText (row : List UInt8) : String := "    " ++ ", ".intercalate (row.map byteText) ++ ",\n"

/-- The definition of a constant array with this name, a line for each row. -/
def arrayText (name : String) (bytes : List UInt8) : String :=
  "const uint8_t " ++ name ++ "[" ++ bytes.length.repr ++ "] = \x7b\n" ++
    String.join ((byteRows bytes).map rowText) ++ "\x7d;\n"

end LogicWiring
