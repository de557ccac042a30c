import SymLift.Bytes
import SymLift.Json

/-!
# Types of lifted values

`Ty` is the declared type of a value, with its width and its name.  A type
reads from JSON as its name.  `Ty.all` lists the types, and
`Ty.ofName?_name` says that a name is read back.

The name of a byte order is read and written here too.
-/

namespace SymLift

namespace IR

/-- The declared type of a value. -/
inductive Ty where
  | i1
  | i8
  | i16
  | i32
  | i64
  | i128
  | f32
  | f64
  | v128
  deriving DecidableEq

namespace Ty

/-- The types. -/
def all : List Ty := [i1, i8, i16, i32, i64, i128, f32, f64, v128]

/-- The width of a value. -/
def width : Ty → Nat
  | i1 => 1
  | i8 => 8
  | i16 => 16
  | i32 | f32 => 32
  | i64 | f64 => 64
  | i128 | v128 => 128

/-- The name of a type. -/
def name : Ty → String
  | i1 => "Ity_I1"
  | i8 => "Ity_I8"
  | i16 => "Ity_I16"
  | i32 => "Ity_I32"
  | i64 => "Ity_I64"
  | i128 => "Ity_I128"
  | f32 => "Ity_F32"
  | f64 => "Ity_F64"
  | v128 => "Ity_V128"

/-- The type of a name. -/
def ofName? (name : String) : Option Ty := all.find? (·.name = name)

theorem ofName?_name (ty : Ty) : ofName? ty.name = some ty := by
  cases ty <;> decide

theorem width_pos (ty : Ty) : 0 < ty.width := by
  cases ty <;> decide

theorem width_le (ty : Ty) : ty.width ≤ Word.maxBits := by
  cases ty <;> decide

/-- Reads a type from JSON, on its own or inside a tree. -/
def ofJson? (nested : Bool) (j : Json) : Option Ty := do ofName? (← j.unit? nested)

/-- Writes a type as JSON. -/
def toJson (ty : Ty) : Json := .str ty.name

end Ty

end IR

namespace ByteOrder

/-- The name of a byte order. -/
def name : ByteOrder → String
  | .little => "Iend_LE"
  | .big => "Iend_BE"

/-- The byte order of a name. -/
def ofName? (name : String) : Option ByteOrder :=
  [little, big].find? (·.name = name)

theorem ofName?_name (order : ByteOrder) : ofName? order.name = some order := by
  cases order <;> decide

end ByteOrder

end SymLift
