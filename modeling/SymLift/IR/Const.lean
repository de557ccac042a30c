import SymLift.IR.Ty

/-!
# Literals

`Const` is a literal of the lifted code.  A floating point literal is
carried as its bits, and a vector literal as one bit for each byte.

* `Const.ty` is the type of a literal.
* `Const.bits` is its value as a number, and `Const.term` as a term.
* `Const.ofJson?` and `Const.toJson` read and write it, and
  `Const.ofJson?_toJson` says that they agree.
-/

namespace SymLift.IR

/-- A literal. -/
inductive Const where
  | u1 (value : Bool)
  | u8 (value : UInt8)
  | u16 (value : UInt16)
  | u32 (value : UInt32)
  | u64 (value : UInt64)
  /-- The bits of a number of single precision. -/
  | f32 (bits : UInt32)
  /-- The bits of a number of double precision. -/
  | f64 (bits : UInt64)
  /-- One bit for each byte: a byte is all ones if its bit is set. -/
  | v128 (lanes : UInt16)
  deriving DecidableEq

namespace Const

/-- The type of a literal. -/
def ty : Const → Ty
  | .u1 _ => .i1
  | .u8 _ => .i8
  | .u16 _ => .i16
  | .u32 _ => .i32
  | .u64 _ => .i64
  | .f32 _ => .f32
  | .f64 _ => .f64
  | .v128 _ => .v128

/-- The number of sixteen bytes that are all ones where `lanes` has a bit,
and zero elsewhere. -/
def expandLanes (lanes : Nat) : Nat :=
  (List.range 16).foldl
    (fun value lane => if lanes.testBit lane then value ||| 0xff <<< (lane * 8) else value) 0

/-- The value of a literal. -/
def bits : Const → Nat
  | .u1 value => if value then 1 else 0
  | .u8 value => value.toNat
  | .u16 value => value.toNat
  | .u32 value => value.toNat
  | .u64 value => value.toNat
  | .f32 bits => bits.toNat
  | .f64 bits => bits.toNat
  | .v128 lanes => expandLanes lanes.toNat

/-- A literal as a constant of its declared width. -/
def term (c : Const) : Term := Fold.lit c.bits c.ty.width

/-- The name of a kind of literal, and what it holds, as JSON. -/
def tagged : Const → String × Json
  | .u1 value => ("Ico_U1", .bool value)
  | .u8 value => ("Ico_U8", .nat value.toNat)
  | .u16 value => ("Ico_U16", .nat value.toNat)
  | .u32 value => ("Ico_U32", .nat value.toNat)
  | .u64 value => ("Ico_U64", .nat value.toNat)
  | .f32 bits => ("Ico_F32", .nat bits.toNat)
  | .f64 bits => ("Ico_F64", .nat bits.toNat)
  | .v128 lanes => ("Ico_V128", .nat lanes.toNat)

/-- The literal of a kind. -/
def ofTagged? (name : String) (payload : Json) : Option Const :=
  match name with
  | "Ico_U1" => payload.bool?.map .u1
  | "Ico_U8" => (payload.nat? UInt8.size).map fun n => .u8 (UInt8.ofNat n)
  | "Ico_U16" => (payload.nat? UInt16.size).map fun n => .u16 (UInt16.ofNat n)
  | "Ico_U32" => (payload.nat? UInt32.size).map fun n => .u32 (UInt32.ofNat n)
  | "Ico_U64" => (payload.nat? UInt64.size).map fun n => .u64 (UInt64.ofNat n)
  | "Ico_F32" => (payload.nat? UInt32.size).map fun n => .f32 (UInt32.ofNat n)
  | "Ico_F64" => (payload.nat? UInt64.size).map fun n => .f64 (UInt64.ofNat n)
  | "Ico_V128" => (payload.nat? UInt16.size).map fun n => .v128 (UInt16.ofNat n)
  | _ => none

/-- Reads a literal from JSON: an object whose only field is the kind. -/
def ofJson? (j : Json) : Option Const :=
  match j.variant? with
  | some (name, some payload) => ofTagged? name payload
  | _ => none

/-- Writes a literal as JSON. -/
def toJson (c : Const) : Json := .obj [c.tagged]

theorem ofJson?_toJson (c : Const) : ofJson? c.toJson = some c := by
  cases c with
  | u1 value => rfl
  | u8 value | u16 value | u32 value | u64 value | f32 value | f64 value | v128 value =>
    have h := value.toNat_lt_size
    simp [toJson, tagged, ofJson?, ofTagged?, Json.obj, Json.variant?, Json.nat, Json.nat?, h]

end Const

end SymLift.IR
