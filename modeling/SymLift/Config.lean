import SymLift.Json.Reader

/-!
# Configuration

The limits of one analysis run.  A configuration is read from a JSON
record.  A field that is missing takes its default: an object may leave out
any field, and an array may stop early.
-/

namespace SymLift

/-- Which arguments of a helper call hand on their side conditions. -/
inductive ArgumentPolicy where
  /-- Only the first. -/
  | first
  /-- All of them, in order. -/
  | all
  deriving DecidableEq

/-- The name of a policy. -/
def ArgumentPolicy.name : ArgumentPolicy → String
  | .first => "first_argument"
  | .all => "all_arguments"

/-- The policy of a name. -/
def ArgumentPolicy.ofName? (name : String) : Option ArgumentPolicy :=
  [first, all].find? (·.name = name)

/-- The limits of one analysis run. -/
structure Config where
  helperConstraints : ArgumentPolicy := .first
  /-- The length of the window in which a string is searched for its end. -/
  maxStrLen : UInt32 := 128
  /-- How far the search goes on while every byte is known. -/
  maxConcreteStrLen : UInt32 := 65536
  /-- The number of bytes recorded for a write of unknown length. -/
  maxBufferBytes : UInt32 := 256
  /-- The greatest known length of a write. -/
  maxWriteBytes : UInt32 := 1048576
  deriving DecidableEq

namespace Config

instance : Inhabited Config := ⟨{}⟩

/-- The names of the fields, in order. -/
def fields : List String :=
  ["ccall_constraints", "max_str_len", "max_concrete_str_len", "max_buffer_bytes",
    "max_write_bytes"]

/-- Writes a configuration as JSON. -/
def toJson (c : Config) : Json :=
  .obj (fields.zip
    [.str c.helperConstraints.name, .nat c.maxStrLen.toNat, .nat c.maxConcreteStrLen.toNat,
      .nat c.maxBufferBytes.toNat, .nat c.maxWriteBytes.toNat])

/-- Reads a policy, or takes the default. -/
def readPolicy? (default : ArgumentPolicy) : Option Json → Option ArgumentPolicy
  | none => some default
  | some j => do ArgumentPolicy.ofName? (← j.unit? false)

/-- Reads a limit, or takes the default. -/
def readLimit? (default : UInt32) : Option Json → Option UInt32
  | none => some default
  | some j => (j.nat? UInt32.size).map UInt32.ofNat

/-- Reads the fields, in order. -/
def ofFields? (values : List (Option Json)) : Option Config := do
  let value (i : Nat) : Option Json := (values[i]?).join
  let default : Config := {}
  some {
    helperConstraints := ← readPolicy? default.helperConstraints (value 0)
    maxStrLen := ← readLimit? default.maxStrLen (value 1)
    maxConcreteStrLen := ← readLimit? default.maxConcreteStrLen (value 2)
    maxBufferBytes := ← readLimit? default.maxBufferBytes (value 3)
    maxWriteBytes := ← readLimit? default.maxWriteBytes (value 4) }

/-- Reads a configuration from JSON. -/
def ofJson? : Json → Option Config
  | .array items => if items.length ≤ fields.length then ofFields? (items.map some) else none
  | .object entries => do
    let named ← Json.namedFields? entries
    ofFields? (← fields.mapM (Json.optionalField? named))
  | _ => none

/-- Reads a configuration from a text. -/
def parse? (text : String) : Option Config := do ofJson? (← Json.parse? text)

end Config

end SymLift
