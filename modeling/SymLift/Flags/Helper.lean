import SymLift.Failure
import SymLift.Flags.Bits

/-!
# Flag helpers

`Helper.callWords` is what a helper gives for terms of one word.

A known operation of the thunk is evaluated alone.  An operation that is not
known selects among all modeled ones, and a constraint says that it is one
of them.  A condition code that is not known comes with the constraint that
it is below sixteen.
-/

namespace SymLift

open Fold

/-- The operation of the thunk has the number `op`. -/
def isThunkOp (ccOp : Term) (op : Nat) : Term := compare .eq ccOp (lit op ccOp.width)

namespace Guest

/-- The value of `f` at the operation with a number. -/
def atThunkOp (g : Guest) (f : ThunkOp → Nat → Term) (op : Nat) : Term :=
  match g.decodeThunk? op with
  | some (thunkOp, width) => f thunkOp width
  | none => f .copy g.wordBits

/-- The value of `f` at whichever modeled operation `ccOp` is.  The last
choice is `copy`. -/
def selectThunkOp (g : Guest) (ccOp : Term) (f : ThunkOp → Nat → Term) : Term :=
  (List.range' 1 (g.modeledOps - 1)).foldr
    (fun op rest => ite (isThunkOp ccOp op) (g.atThunkOp f op) rest)
    (f .copy g.wordBits)

/-- `ccOp` is a modeled operation. -/
def isModeled (g : Guest) (ccOp : Term) : Term :=
  disj (isThunkOp ccOp 0 :: (List.range' 1 (g.modeledOps - 1)).reverse.map (isThunkOp ccOp))

end Guest

namespace Helper

/-- The value of `f` at the operation of the thunk, and what it relies on. -/
def overThunkOp (h : Helper) (ccOp : Term) (f : ThunkOp → Nat → Term) :
    Except Failure (Term × List Term) :=
  match ccOp.addressValue? with
  | some op =>
    match h.guest.decodeThunk? op with
    | some (thunkOp, width) => .ok (f thunkOp width, [])
    | none => .error (.unsupportedFlagThunk h op)
  | none => .ok (h.guest.selectThunkOp ccOp f, [h.guest.isModeled ccOp])

/-- The constraint that a condition code relies on. -/
def codeConstraints (code : Term) : List Term :=
  if code.isConstant then [] else [compare .ult code (lit 16 code.width)]

/-- The value of a helper on words, and what it relies on. -/
def callWords (h : Helper) (args : List Term) : Except Failure (Term × List Term) :=
  let word := h.guest.wordBits
  match h.query, args with
  | .condition, [code, ccOp, dep1, dep2, ndep] => do
    let (value, needs) ← h.overThunkOp ccOp fun op width =>
      (FlagBits.ofThunk op width dep1 dep2 ndep).condition code
    .ok (zeroExt (word - 1) value, needs ++ codeConstraints code)
  | .flags, [ccOp, dep1, dep2, ndep] =>
    h.overThunkOp ccOp fun op width => (FlagBits.ofThunk op width dep1 dep2 ndep).pack word
  | .carry, [ccOp, dep1, dep2, ndep] =>
    h.overThunkOp ccOp fun op width =>
      zeroExt (word - 1) (FlagBits.ofThunk op width dep1 dep2 ndep).carry
  | _, _ => .error (.callHelperArity h h.arity args.length)

end Helper

end SymLift
