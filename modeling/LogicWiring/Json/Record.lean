-- Reading values and records out of trees. A record is written as an object,
-- or as an array of its fields in order. Faults are met from left to right.
import LogicWiring.Json.Tree

namespace LogicWiring.Json

namespace Tree

def readText : Tree → Except Fault String
  | .text r => r.value
  | t => .error t.refusal

/-- A natural number below 2^32. -/
def readWord32 : Tree → Except Fault UInt32
  | .number r =>
    match r.value with
    | .ok (.natural n) => if n.toNat < UInt32.size then .ok n.toUInt32 else .error .mismatch
    | .ok .other => .error .mismatch
    | .error f => .error f
  | t => .error t.refusal

/-- Nothing in place of a value is written as null. -/
def readOptional {α : Type} (read : Tree → Except Fault α) : Tree → Except Fault (Option α)
  | .null => .ok none
  | t => (read t).map some

def readList {α : Type} (read : Tree → Except Fault α) : Tree → Except Fault (List α)
  | .array items broken =>
    match items.mapM read, broken with
    | .error f, _ => .error f
    | .ok _, some f => .error f
    | .ok as, none => .ok as
  | t => .error t.refusal

end Tree

/-- A kind of record: its fields in order, those that may not be left out, the record
before a field is read, and how the value of a field is read into it. -/
structure Record (α : Type) where
  fields : List String
  required : List String
  blank : α
  set : String → Tree → α → Except Fault α

namespace Record

variable {α : Type}

/-- Reads the members of an object into a record. `seen` are the fields it has so far,
which may not come again. Other members are passed over. -/
def readMembers (r : Record α) (seen : List String) (a : α) :
    List (Reading String × Tree) → Except Fault (List String × α)
  | [] => .ok (seen, a)
  | (key, t) :: rest =>
    match key.value with
    | .error f => .error f
    | .ok name =>
      if name ∉ r.fields then
        match t.formFault with
        | some f => .error f
        | none => r.readMembers seen a rest
      else if name ∈ seen then .error .mismatch
      else
        match r.set name t a with
        | .error f => .error f
        | .ok a => r.readMembers (name :: seen) a rest

/-- Reads the items of an array into the fields in order. There may not be more items
than fields. -/
def readItems (r : Record α) (seen : List String) (a : α) :
    List String → List Tree → Except Fault (List String × α)
  | _, [] => .ok (seen, a)
  | [], _ :: _ => .error .malformed
  | name :: fields, t :: rest =>
    match r.set name t a with
    | .error f => .error f
    | .ok a => r.readItems (name :: seen) a fields rest

/-- The record, if its text does not break off and all that is required has been seen. -/
def finish (r : Record α) (broken : Option Fault) (seen : List String) (a : α) :
    Except Fault α :=
  match broken with
  | some f => .error f
  | none => if ∀ name ∈ r.required, name ∈ seen then .ok a else .error .mismatch

def read (r : Record α) : Tree → Except Fault α
  | .object members broken => do
    let (seen, a) ← r.readMembers [] r.blank members
    r.finish broken seen a
  | .array items broken => do
    let (seen, a) ← r.readItems [] r.blank r.fields items
    r.finish broken seen a
  | t => .error t.refusal

end Record

end LogicWiring.Json
