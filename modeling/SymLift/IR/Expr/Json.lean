import SymLift.IR.Expr
import SymLift.Json.Reader

/-!
# The JSON form of a tree

A tree is written as a tagged record: an object whose field `tag` names the
kind of the root, beside one field for each part.

* `Expr.toJson` writes a tree.
* `Expr.ofJson?` reads a tree.  A record may also be an array, the tag
  before the parts in order.  Inside a tree the tag may also be the number
  of its kind.
* `Expr.parse?` reads a tree from a text.  The whole text must be sound,
  and its nesting is limited, even where a field is ignored.
-/

namespace SymLift.IR

/-- The names of the parts of a kind, in order. -/
def Kind.parts : Kind → List String
  | .binder => ["binder"]
  | .get => ["offset", "ty"]
  | .getI => ["descr", "ix", "bias"]
  | .unop => ["op", "arg"]
  | .binop => ["op", "arg1", "arg2"]
  | .triop => ["op", "arg1", "arg2", "arg3"]
  | .qop => ["op", "arg1", "arg2", "arg3", "arg4"]
  | .rdTmp => ["tmp"]
  | .const => ["con"]
  | .load => ["end", "ty", "addr"]
  | .ccall => ["callee", "retty", "args"]
  | .mux0X => ["cond", "expr0", "exprX"]

/-! ## Writing -/

namespace RegArray

/-- The names of the parts of a register array. -/
def parts : List String := ["base", "elem_ty", "n_elems"]

/-- Writes a register array as JSON. -/
def toJson (r : RegArray) : Json :=
  .obj (parts.zip [.nat r.base.toNat, r.elemTy.toJson, .nat r.size.toNat])

/-- Reads a register array inside a tree. -/
def ofJson? (j : Json) : Option RegArray := do
  match ← j.record? parts with
  | [base, elemTy, size] =>
    some {
      base := UInt64.ofNat (← base.nat? UInt64.size)
      elemTy := ← Ty.ofJson? true elemTy
      size := UInt32.ofNat (← size.nat? UInt32.size) }
  | _ => none

end RegArray

namespace Expr

/-- The record of a kind with these parts. -/
def tagged (kind : Kind) (parts : List Json) : Json :=
  .obj (("tag", .str kind.name) :: kind.parts.zip parts)

/-- Writes an operator as JSON. -/
def opToJson (op : Op) : Json := .str op.name

mutual
/-- Writes a tree as JSON. -/
def toJson : Expr → Json
  | .binder index => tagged .binder [.nat index.toNat]
  | .get offset ty => tagged .get [.nat offset.toNat, ty.toJson]
  | .getI registers index bias =>
    tagged .getI [registers.toJson, index.toJson, .integer bias.toInt]
  | .unop op arg => tagged .unop [opToJson op, arg.toJson]
  | .binop op arg1 arg2 => tagged .binop [opToJson op, arg1.toJson, arg2.toJson]
  | .triop op arg1 arg2 arg3 =>
    tagged .triop [opToJson op, arg1.toJson, arg2.toJson, arg3.toJson]
  | .qop op arg1 arg2 arg3 arg4 =>
    tagged .qop [opToJson op, arg1.toJson, arg2.toJson, arg3.toJson, arg4.toJson]
  | .rdTmp tmp => tagged .rdTmp [.nat tmp.toNat]
  | .const literal => tagged .const [literal.toJson]
  | .load order ty addr => tagged .load [.str order.name, ty.toJson, addr.toJson]
  | .ccall callee retTy args =>
    tagged .ccall [.str callee, retTy.toJson, .array (toJsonAll args)]
  | .mux0X cond expr0 exprX => tagged .mux0X [cond.toJson, expr0.toJson, exprX.toJson]

/-- Writes trees as JSON. -/
def toJsonAll : List Expr → List Json
  | [] => []
  | e :: es => e.toJson :: toJsonAll es
end

/-! ## Reading -/

/-- Reads a tag.  Inside a tree it may be the number of its kind. -/
def kindOfTag? (nested : Bool) : Json → Option Kind
  | .string (some name) => Kind.ofName? name
  | .integer number => if nested ∧ 0 ≤ number then Kind.all[number.toNat]? else none
  | _ => none

/-- The kind of a tagged record, and its parts in order. -/
def untag? (nested : Bool) : Json → Option (Kind × List Json)
  | .array (tag :: parts) => do
    let kind ← kindOfTag? nested tag
    some (kind, ← (Json.array parts).record? kind.parts)
  | .object fields => do
    let tag ← Json.field? (← Json.namedFields? fields) "tag"
    let kind ← kindOfTag? nested tag
    some (kind, ← (Json.object fields).record? kind.parts)
  | _ => none

/-- Reads an operator. -/
def readOp? (j : Json) : Option Op := j.str?.map Op.parse

/-- Reads a byte order inside a tree. -/
def readOrder? (j : Json) : Option ByteOrder := do ByteOrder.ofName? (← j.unit? true)

/-- Reads a number of 32 bits. -/
def readUInt32? (j : Json) : Option UInt32 := (j.nat? UInt32.size).map UInt32.ofNat

/-- Reads a tree that nests at most `fuel` deep. -/
def read? : (fuel : Nat) → (nested : Bool) → Json → Option Expr
  | 0, _, _ => none
  | fuel + 1, nested, j => do
    match ← untag? nested j with
    | (.binder, [index]) => some (.binder (← readUInt32? index))
    | (.get, [offset, ty]) =>
      some (.get (UInt64.ofNat (← offset.nat? UInt64.size)) (← Ty.ofJson? true ty))
    | (.getI, [registers, index, bias]) =>
      some (.getI (← RegArray.ofJson? registers) (← read? fuel true index)
        (Int32.ofInt (← bias.int? (UInt32.size / 2))))
    | (.unop, [op, arg]) => some (.unop (← readOp? op) (← read? fuel true arg))
    | (.binop, [op, arg1, arg2]) =>
      some (.binop (← readOp? op) (← read? fuel true arg1) (← read? fuel true arg2))
    | (.triop, [op, arg1, arg2, arg3]) =>
      some (.triop (← readOp? op) (← read? fuel true arg1) (← read? fuel true arg2)
        (← read? fuel true arg3))
    | (.qop, [op, arg1, arg2, arg3, arg4]) =>
      some (.qop (← readOp? op) (← read? fuel true arg1) (← read? fuel true arg2)
        (← read? fuel true arg3) (← read? fuel true arg4))
    | (.rdTmp, [tmp]) => some (.rdTmp (← readUInt32? tmp))
    | (.const, [literal]) => some (.const (← Const.ofJson? literal))
    | (.load, [order, ty, addr]) =>
      some (.load (← readOrder? order) (← Ty.ofJson? true ty) (← read? fuel true addr))
    | (.ccall, [callee, retTy, args]) =>
      some (.ccall (← callee.str?) (← Ty.ofJson? true retTy)
        (← (← args.items?).mapM (read? fuel true)))
    | (.mux0X, [cond, expr0, exprX]) =>
      some (.mux0X (← read? fuel true cond) (← read? fuel true expr0) (← read? fuel true exprX))
    | _ => none

/-- Reads a tree from JSON. -/
def ofJson? (j : Json) : Option Expr :=
  if j.isSound ∧ j.depth ≤ Json.maxDepth then read? (j.depth + 1) false j else none

/-- Reads a tree from a text. -/
def parse? (text : String) : Option Expr := do ofJson? (← Json.parse? text)

end Expr

end SymLift.IR
