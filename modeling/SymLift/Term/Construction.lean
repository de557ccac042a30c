import SymLift.Bytes

/-!
# Terms as written

A `Construction` is a term as its author writes it: nested constructor
calls, before any check and any simplification.  A leaf of type `α` stands
for a term that is known by other means, such as an argument or an earlier
result.

`Construction.build` calls the constructors, operands from left to right.
It fails with the fault of the first call that does not check.
-/

namespace SymLift

/-- A constructor call of one operand. -/
inductive UnaryCall where
  | bits (op : UnaryOp)
  | boolNot
  | reverseBytes
  | extract (hi lo : Nat)
  | zeroExt (count : Nat)
  | signExt (count : Nat)
  | resize (width : Nat)
  | boolToBits (width : Nat)
  deriving DecidableEq

/-- A constructor call of two operands. -/
inductive BinaryCall where
  /-- A binary operation.  The amount of a shift may have any width. -/
  | bits (op : BinaryOp)
  | compare (op : CompareOp)
  | notEqual
  | concat
  deriving DecidableEq

/-- Nested constructor calls. -/
inductive Construction (α : Type) where
  /-- A term known by other means. -/
  | leaf (source : α)
  | const (value width : Nat)
  | var (name : String) (width : Nat)
  | bool (value : Bool)
  | unary (call : UnaryCall) (arg : Construction α)
  | binary (call : BinaryCall) (left right : Construction α)
  | conj (args : List (Construction α))
  | disj (args : List (Construction α))
  | ite (cond thenArm elseArm : Construction α)

namespace Build

/-- A constructor call of one operand. -/
def callUnary (call : UnaryCall) (arg : Term) : Except Fault Term :=
  match call with
  | .bits op => .ok (Fold.unary op arg)
  | .boolNot => not arg
  | .reverseBytes => reverseBytes arg
  | .extract hi lo => extract hi lo arg
  | .zeroExt count => zeroExt count arg
  | .signExt count => signExt count arg
  | .resize width => resize width arg
  | .boolToBits width => boolToBits width arg

/-- A constructor call of two operands. -/
def callBinary (call : BinaryCall) (left right : Term) : Except Fault Term :=
  match call with
  | .bits op => if op.isShift then shift op left right else binary op left right
  | .compare op => compare op left right
  | .notEqual => notEqual left right
  | .concat => concat left right

end Build

namespace Construction

variable {α : Type}

mutual
/-- Calls the constructors, operands from left to right. -/
def build (leafTerm : α → Except Fault Term) : Construction α → Except Fault Term
  | .leaf source => leafTerm source
  | .const value width => Build.lit value width
  | .var name width => Build.var name width
  | .bool value => .ok (.bool value)
  | .unary call arg => do
    Build.callUnary call (← arg.build leafTerm)
  | .binary call left right => do
    Build.callBinary call (← left.build leafTerm) (← right.build leafTerm)
  | .conj args => do
    Build.conj (← buildAll leafTerm args)
  | .disj args => do
    Build.disj (← buildAll leafTerm args)
  | .ite cond thenArm elseArm => do
    Build.ite (← cond.build leafTerm) (← thenArm.build leafTerm) (← elseArm.build leafTerm)

/-- Builds a list of terms, from left to right. -/
def buildAll (leafTerm : α → Except Fault Term) : List (Construction α) → Except Fault (List Term)
  | [] => .ok []
  | c :: cs => do
    let t ← c.build leafTerm
    .ok (t :: (← buildAll leafTerm cs))
end

end Construction

end SymLift
