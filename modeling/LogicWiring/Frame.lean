-- The packet that carries a program to the controller: a start byte, the
-- length, the program, and the sum of its bytes modulo 256.

namespace LogicWiring

def frameStart : UInt8 := 0x7E

def maxFramePayload : Nat := 255

inductive FrameError
  | tooLong (length max : Nat)
  | truncated (length : Nat)
  | badStart (found : UInt8)
  | lengthMismatch (declared actual : Nat)
  | checksum (expected found : UInt8)
  deriving DecidableEq, Repr

/-- A byte as two hexadecimal digits in capitals. -/
def hexByte (b : UInt8) : String :=
  String.ofList (((Nat.toDigits 16 b.toNat).leftpad 2 '0').map Char.toUpper)

def FrameError.message : FrameError → String
  | tooLong length max =>
    "program is " ++ length.repr ++ " bytes, a frame carries at most " ++ max.repr
  | truncated length =>
    "frame is " ++ length.repr ++ " bytes, shorter than the 3-byte envelope"
  | badStart found => "frame starts with 0x" ++ hexByte found ++ ", expected 0x7E"
  | lengthMismatch declared actual =>
    "frame declares " ++ declared.repr ++ " payload bytes but carries " ++ actual.repr
  | checksum expected found =>
    "checksum 0x" ++ hexByte found ++ " does not match computed 0x" ++ hexByte expected

/-- The sum of the bytes modulo 256. -/
def checksum (bytes : List UInt8) : UInt8 := bytes.foldl (· + ·) 0

def frame (payload : List UInt8) : Except FrameError (List UInt8) :=
  if payload.length > maxFramePayload then .error (.tooLong payload.length maxFramePayload)
  else .ok (frameStart :: UInt8.ofNat payload.length :: payload ++ [checksum payload])

/-- The payload of a frame. The envelope is checked from its size to its sum. -/
def unframe (bytes : List UInt8) : Except FrameError (List UInt8) :=
  match bytes with
  | start :: declared :: b :: rest =>
    let payload := (b :: rest).dropLast
    let sum := (b :: rest).getLast (List.cons_ne_nil b rest)
    if start ≠ frameStart then .error (.badStart start)
    else if payload.length ≠ declared.toNat then
      .error (.lengthMismatch declared.toNat payload.length)
    else if sum ≠ checksum payload then .error (.checksum (checksum payload) sum)
    else .ok payload
  | short => .error (.truncated short.length)

end LogicWiring
