import SymLift.IR.Const
import SymLift.IR.Op

/-!
# Trees of lifted code

`Expr` is an expression of the lifted code, a tree that is never changed.
`Expr.kind` is the kind of its root, and `Kind.name` the name of a kind.

`Expr.beq` is structural equality, and `Expr.beq_iff` says so.
-/

namespace SymLift.IR

/-- An array of guest registers. -/
structure RegArray where
  base : UInt64
  elemTy : Ty
  size : UInt32
  deriving DecidableEq

/-- An expression. -/
inductive Expr where
  /-- A placeholder of a pattern. -/
  | binder (index : UInt32)
  /-- The guest register at an offset. -/
  | get (offset : UInt64) (ty : Ty)
  /-- The element of a register array at a computed index. -/
  | getI (registers : RegArray) (index : Expr) (bias : Int32)
  | unop (op : Op) (arg : Expr)
  | binop (op : Op) (arg1 arg2 : Expr)
  | triop (op : Op) (arg1 arg2 arg3 : Expr)
  | qop (op : Op) (arg1 arg2 arg3 arg4 : Expr)
  /-- The value of a temporary. -/
  | rdTmp (tmp : UInt32)
  | const (literal : Const)
  /-- The memory at an address. -/
  | load (order : ByteOrder) (ty : Ty) (addr : Expr)
  /-- The result of a helper. -/
  | ccall (callee : String) (retTy : Ty) (args : List Expr)
  /-- `expr0` if `cond` is zero, and `exprX` otherwise. -/
  | mux0X (cond expr0 exprX : Expr)

instance : Inhabited Expr := ⟨.rdTmp 0⟩

/-- The kind of an expression. -/
inductive Kind where
  | binder
  | get
  | getI
  | unop
  | binop
  | triop
  | qop
  | rdTmp
  | const
  | load
  | ccall
  | mux0X
  deriving DecidableEq

namespace Kind

/-- The kinds, in the order of their numbers. -/
def all : List Kind :=
  [binder, get, getI, unop, binop, triop, qop, rdTmp, const, load, ccall, mux0X]

/-- The name of a kind. -/
def name : Kind → String
  | binder => "Iex_Binder"
  | get => "Iex_Get"
  | getI => "Iex_GetI"
  | unop => "Iex_Unop"
  | binop => "Iex_Binop"
  | triop => "Iex_Triop"
  | qop => "Iex_Qop"
  | rdTmp => "Iex_RdTmp"
  | const => "Iex_Const"
  | load => "Iex_Load"
  | ccall => "Iex_CCall"
  | mux0X => "Iex_Mux0X"

/-- The kind of a name. -/
def ofName? (name : String) : Option Kind := all.find? (·.name = name)

theorem ofName?_name (kind : Kind) : ofName? kind.name = some kind := by
  cases kind <;> decide

end Kind

namespace Expr

/-- The kind of an expression. -/
def kind : Expr → Kind
  | .binder _ => .binder
  | .get .. => .get
  | .getI .. => .getI
  | .unop .. => .unop
  | .binop .. => .binop
  | .triop .. => .triop
  | .qop .. => .qop
  | .rdTmp _ => .rdTmp
  | .const _ => .const
  | .load .. => .load
  | .ccall .. => .ccall
  | .mux0X .. => .mux0X

/-- The operator of an expression and its operands, from left to right. -/
def operands? : Expr → Option (Op × List Expr)
  | .unop op arg => some (op, [arg])
  | .binop op arg1 arg2 => some (op, [arg1, arg2])
  | .triop op arg1 arg2 arg3 => some (op, [arg1, arg2, arg3])
  | .qop op arg1 arg2 arg3 arg4 => some (op, [arg1, arg2, arg3, arg4])
  | _ => none

/-! ## Equality -/

mutual
/-- Structural equality. -/
def beq : Expr → Expr → Bool
  | .binder i, .binder i' => i == i'
  | .get o t, .get o' t' => o == o' && t == t'
  | .getI r i b, .getI r' i' b' => r == r' && beq i i' && b == b'
  | .unop o a, .unop o' a' => o == o' && beq a a'
  | .binop o a b, .binop o' a' b' => o == o' && beq a a' && beq b b'
  | .triop o a b c, .triop o' a' b' c' => o == o' && beq a a' && beq b b' && beq c c'
  | .qop o a b c d, .qop o' a' b' c' d' =>
    o == o' && beq a a' && beq b b' && beq c c' && beq d d'
  | .rdTmp t, .rdTmp t' => t == t'
  | .const c, .const c' => c == c'
  | .load o t a, .load o' t' a' => o == o' && t == t' && beq a a'
  | .ccall f t as, .ccall f' t' as' => f == f' && t == t' && beqAll as as'
  | .mux0X c a b, .mux0X c' a' b' => beq c c' && beq a a' && beq b b'
  | _, _ => false

/-- Structural equality, expression by expression. -/
def beqAll : List Expr → List Expr → Bool
  | [], [] => true
  | e :: es, e' :: es' => beq e e' && beqAll es es'
  | _, _ => false
end

mutual
/-- Structural equality holds of equal expressions only, and of all of
them. -/
theorem beq_iff (d e : Expr) : beq d e = true ↔ d = e := by
  cases d <;> cases e <;>
    simp only [beq, Bool.and_eq_true, beq_iff_eq, reduceCtorEq, Bool.false_eq_true,
      Expr.binder.injEq, Expr.get.injEq, Expr.getI.injEq, Expr.unop.injEq, Expr.binop.injEq,
      Expr.triop.injEq, Expr.qop.injEq, Expr.rdTmp.injEq, Expr.const.injEq, Expr.load.injEq,
      Expr.ccall.injEq, Expr.mux0X.injEq, beq_iff _ _, beqAll_iff _ _, and_assoc]

theorem beqAll_iff (ds es : List Expr) : beqAll ds es = true ↔ ds = es := by
  cases ds <;> cases es <;>
    simp only [beqAll, Bool.and_eq_true, reduceCtorEq, Bool.false_eq_true,
      List.cons.injEq, beq_iff _ _, beqAll_iff _ _]
end

instance : DecidableEq Expr := fun d e => decidable_of_iff _ (beq_iff d e)

end Expr

end SymLift.IR
