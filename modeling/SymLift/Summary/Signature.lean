import SymLift.Json.Reader

/-!
# Signatures

The type of a C argument, as far as passing it asks for it: how wide it is,
and whether it is a pointer.  A `Signature` is a list of argument types and
a return type.

* `CType.width?` is the width of a type on a machine with words of some
  width.  Void has none.
* `CType.render` and `Signature.render` write C declarations.
* `Signature.ofJson?` reads a signature.  Its arrays and objects nest at
  most `Json.maxDepth` deep, apart from fields that are ignored.
-/

namespace SymLift

/-- The type of an argument or of a return value. -/
inductive CType where
  | void
  | char
  | int (width : UInt32) (signed : Bool)
  | sizeT
  | pointer (target : CType)
  /-- A pointer to characters that end with a zero. -/
  | string
  deriving DecidableEq

/-- The arguments of a routine and what it returns. -/
structure Signature where
  args : List CType
  ret : CType
  deriving DecidableEq

namespace CType

/-- A C `int`. -/
def cInt : CType := .int 32 true

/-- The width of a value on a machine with words of `word` bits. -/
def width? (word : Nat) : CType → Option Nat
  | .void => none
  | .char => some 8
  | .int width _ => some width.toNat
  | .sizeT | .pointer _ | .string => some word

/-- Whether a value is an address. -/
def isPointer : CType → Bool
  | .pointer _ | .string => true
  | _ => false

/-- The name of a type. -/
def render : CType → String
  | .void => "void"
  | .char => "char"
  | .int width signed =>
    if signed then
      if width = 32 then "int" else "int" ++ toString width.toNat ++ "_t"
    else "uint" ++ toString width.toNat ++ "_t"
  | .sizeT => "size_t"
  | .pointer target => target.render ++ "*"
  | .string => "char*"

/-- Reads an integer type from its width and sign. -/
def readInt? (j : Json) : Option CType := do
  match ← j.record? ["bits", "signed"] with
  | [width, signed] =>
    some (.int (UInt32.ofNat (← width.nat? UInt32.size)) (← signed.bool?))
  | _ => none

/-- Reads a type whose arrays and objects nest at most `depth` deep. -/
def read? : (depth : Nat) → Json → Option CType
  | 0, j =>
    match j with
    | .string (some "Void") => some .void
    | .string (some "Char") => some .char
    | .string (some "SizeT") => some .sizeT
    | .string (some "String") => some .string
    | _ => none
  | depth + 1, j =>
    match j.variant? with
    | some ("Void", none) | some ("Void", some .null) => some .void
    | some ("Char", none) | some ("Char", some .null) => some .char
    | some ("SizeT", none) | some ("SizeT", some .null) => some .sizeT
    | some ("String", none) | some ("String", some .null) => some .string
    | some ("Int", some payload) => if depth = 0 then none else readInt? payload
    | some ("Pointer", some payload) => (read? depth payload).map .pointer
    | _ => none

end CType

namespace Signature

/-- A declaration of a routine. -/
def render (s : Signature) (name : String) : String :=
  s.ret.render ++ " " ++ name ++ "(" ++ ", ".intercalate (s.args.map CType.render) ++ ")"

/-- Reads a signature from JSON. -/
def ofJson? (j : Json) : Option Signature := do
  match ← j.record? ["args", "ret"] with
  | [args, ret] =>
    some {
      args := ← (← args.items?).mapM (CType.read? (Json.maxDepth - 2))
      ret := ← CType.read? (Json.maxDepth - 1) ret }
  | _ => none

end Signature

end SymLift
