import SymLift.Config
import SymLift.Flags.Build
import SymLift.IR.Apply
import SymLift.PathState

/-!
# Lifting

`PathState.lift` gives the value of a tree in a path state as a term,
and the side conditions that the value relies on.  The state is only read.

* The side conditions of operands come before those of the node, from left
  to right.
* A load may use what holds on the path, and the side conditions of its
  address, to find its address.
* A helper call hands on the side conditions of its first argument or of
  all, as the configuration says.
* A choice between two values drops the side conditions of its condition.
  It relies on one disjunction: the condition is zero and the side
  conditions of the first value hold, or it is not and those of the other
  hold.
-/

namespace SymLift

/-- A value and the side conditions that it relies on. -/
structure Lifted where
  value : Term
  needs : List Term
  deriving DecidableEq

namespace PathState

/-- The value of a guest register. -/
def liftGet (s : PathState) (offset : UInt64) (ty : IR.Ty) : Except Failure Lifted := do
  .ok { value := ← s.registers.load (s.word offset.toNat) ty.width [], needs := [] }

/-- The memory at a lifted address. -/
def liftLoad (s : PathState) (order : ByteOrder) (ty : IR.Ty) (addr : Lifted) :
    Except Failure Lifted := do
  let raw ← s.memory.load addr.value ty.width (s.constraints ++ addr.needs)
  .ok { value := ← Build.fixOrder order raw, needs := addr.needs }

/-- An operator on lifted operands. -/
def liftOp (op : IR.Op) (args : List Lifted) : Except Failure Lifted := do
  .ok { value := ← op.apply (args.map (·.value)), needs := args.flatMap (·.needs) }

/-- The side conditions of the arguments of a helper call that are kept. -/
def keptNeeds (policy : ArgumentPolicy) (args : List Lifted) : List Term :=
  match policy with
  | .first => (args.take 1).flatMap (·.needs)
  | .all => args.flatMap (·.needs)

/-- A helper call on lifted arguments. -/
def liftCall (policy : ArgumentPolicy) (callee : String) (retTy : IR.Ty)
    (args : List Lifted) : Except Failure Lifted :=
  match Helper.ofName? callee with
  | none => .error (.unsupportedCallHelper callee)
  | some helper => do
    let (value, needs) ← helper.call (args.map (·.value))
    .ok {
      value := ← Build.resize retTy.width value
      needs := keptNeeds policy args ++ needs }

/-- A choice between two lifted values. -/
def liftMux (cond : Term) (zeroCase otherCase : Lifted) : Except Failure Lifted := do
  let isZero ← Build.compare .eq cond (← Build.lit 0 cond.width)
  let isOther ← Build.not isZero
  let first ← Build.conj (isZero :: zeroCase.needs)
  let second ← Build.conj (isOther :: otherCase.needs)
  .ok {
    needs := [← Build.disj [first, second]]
    value := ← Build.ite isZero zeroCase.value otherCase.value }

mutual
/-- The value of a tree, and what it relies on. -/
def lift (policy : ArgumentPolicy) (s : PathState) : IR.Expr → Except Failure Lifted
  | .binder _ => .error (.unsupportedExpressionKind .binder)
  | .getI .. => .error (.unsupportedExpressionKind .getI)
  | .get offset ty => s.liftGet offset ty
  | .rdTmp tmp =>
    match s.temp? tmp.toNat with
    | some value => .ok { value, needs := [] }
    | none => .error (.unboundTemporary tmp)
  | .const literal => .ok { value := literal.term, needs := [] }
  | .unop op arg => do
    liftOp op [← lift policy s arg]
  | .binop op arg1 arg2 => do
    liftOp op [← lift policy s arg1, ← lift policy s arg2]
  | .triop op arg1 arg2 arg3 => do
    liftOp op
      [← lift policy s arg1, ← lift policy s arg2, ← lift policy s arg3]
  | .qop op arg1 arg2 arg3 arg4 => do
    liftOp op
      [← lift policy s arg1, ← lift policy s arg2, ← lift policy s arg3,
        ← lift policy s arg4]
  | .load order ty addr => do
    s.liftLoad order ty (← lift policy s addr)
  | .ccall callee retTy args => do
    liftCall policy callee retTy (← liftAll policy s args)
  | .mux0X cond expr0 exprX => do
    let cond ← lift policy s cond
    let zeroCase ← lift policy s expr0
    let otherCase ← lift policy s exprX
    liftMux cond.value zeroCase otherCase

/-- The values of trees, from left to right. -/
def liftAll (policy : ArgumentPolicy) (s : PathState) :
    List IR.Expr → Except Failure (List Lifted)
  | [] => .ok []
  | e :: es => do
    let first ← lift policy s e
    .ok (first :: (← liftAll policy s es))
end

end PathState

end SymLift
