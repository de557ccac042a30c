import SymLift.Failure

/-!
# Operators applied to terms

`Op.apply` is the term that an operator gives for its operands.  The widths
of the operator itself are checked here.  The widths of the operands are
checked by the constructors that the operator calls, so an operand of
another width than the operator declares is not always a fault.

An operator that is only known by name is not supported, and neither are
conversions and divisions whose widths do not fit each other.
-/

namespace SymLift.IR.Op

/-- One bit that tells whether a term is true. -/
def flag (cond : Term) : Except Fault Term := Build.boolToBits 1 cond

/-- The number of zero bits of `arg` up to the first set one.  The bits are
looked at in the order `place 0`, `place 1`, and so on.  The answer is
`width` if none is set. -/
def countZeros (arg : Term) (width : Nat) (place : Nat → Nat) : Except Fault Term := do
  (List.range width).foldrM
    (fun i rest => do
      let set ← Build.compare .eq (← Build.extract (place i) (place i) arg) (Fold.lit 1 1)
      Build.ite set (Fold.lit i width) rest)
    (← Build.lit width width)

/-- A product at `width` more bits than the operands. -/
def wideProduct (extend : Term → Except Fault Term) (left right : Term) :
    Except Fault Term := do
  Build.binary .mul (← extend left) (← extend right)

/-- A family of one operand. -/
def applyUnary (family : Family) (width : Nat) (arg : Term) : Except Fault Term :=
  match family with
  | .cmpNEZ => do flag (← Build.notEqual arg (← Build.lit 0 width))
  | .clz => countZeros arg width (width - 1 - ·)
  | .ctz => countZeros arg width id
  | _ => .ok (Fold.unary .complement arg)

/-- A family of two operands. -/
def applyBinary (family : Family) (width : Nat) (left right : Term) : Except Fault Term :=
  match family with
  | .add => Build.binary .add left right
  | .sub => Build.binary .sub left right
  | .mul => Build.binary .mul left right
  | .mullS => wideProduct (Build.signExt width) left right
  | .mullU => wideProduct (Build.zeroExt width) left right
  | .divU => Build.binary .udiv left right
  | .divS => Build.binary .sdiv left right
  | .and => Build.binary .and left right
  | .or => Build.binary .or left right
  | .xor => Build.binary .xor left right
  | .shl => Build.shift .shl left right
  | .shr => Build.shift .lshr left right
  | .sar => Build.shift .ashr left right
  | .cmpEQ => do flag (← Build.compare .eq left right)
  | .cmpLTS => do flag (← Build.compare .slt left right)
  | .cmpLTU => do flag (← Build.compare .ult left right)
  | .cmpLES => do flag (← Build.compare .sle left right)
  | .cmpLEU => do flag (← Build.compare .ule left right)
  | .maxU => do Build.ite (← Build.compare .ult left right) right left
  | _ => do flag (← Build.notEqual left right)

/-- Whether the widths of a conversion of one operand fit each other. -/
def conversionFits (conversion : Conversion) (source target : Nat) : Bool :=
  match conversion with
  | .unsigned | .signed => source ≤ target
  | _ => target ≤ source

/-- The place of the highest of `width` bits. -/
def topPlace (width : Nat) : Except Fault Nat :=
  if width = 0 then .error .widthUnderflow else .ok (width - 1)

/-- A conversion of one operand whose widths fit. -/
def applyConversion (conversion : Conversion) (source target : Nat) (arg : Term) :
    Except Fault Term :=
  match conversion with
  | .unsigned => Build.zeroExt (target - source) arg
  | .signed => Build.signExt (target - source) arg
  | .high => do Build.extract (← topPlace source) (source - target) arg
  | _ => do Build.extract (← topPlace target) 0 arg

/-- Two halves of `source` bits each, the high one first, if `target` is
their width together. -/
def joinFits (source target : Nat) : Except Fault Bool := do
  Build.checkWidth (source * 2)
  .ok (source * 2 = target)

/-- Whether the widths of a division with remainder fit: the dividend is
twice as wide as the divisor, which has at least one bit. -/
def divModFits (source target : Nat) : Except Fault Bool := do
  if target = 0 then .ok false
  else
    Build.checkWidth (target * 2)
    .ok (target * 2 = source)

/-- The low halves of remainder and quotient, the remainder above. -/
def applyDivMod (signed : Bool) (source target : Nat) (left right : Term) :
    Except Fault Term := do
  let divisor ←
    if signed then Build.signExt (source - target) right
    else Build.zeroExt (source - target) right
  let quotient ← Build.binary (if signed then .sdiv else .udiv) left divisor
  let remainder ← Build.binary (if signed then .srem else .urem) left divisor
  Build.concat (← Build.extract (target - 1) 0 remainder) (← Build.extract (target - 1) 0 quotient)

/-- The term that an operator gives for its operands. -/
def apply (op : Op) (args : List Term) : Except Failure Term :=
  match op, args with
  | .other _, _ => .error (.unsupportedOperator op)
  | .sized family width, [arg] =>
    if op.arity = 1 then Failure.ofFault (applyUnary family width arg)
    else .error (.operatorArity op op.arity 1)
  | .sized family width, [left, right] =>
    if op.arity = 2 then Failure.ofFault (applyBinary family width left right)
    else .error (.operatorArity op op.arity 2)
  | .convert .join source target, [high, low] => do
    if ← joinFits source target then Failure.ofFault (Build.concat high low)
    else .error (.unsupportedOperator op)
  | .convert conversion source target, [arg] =>
    if op.arity = 1 then
      if conversionFits conversion source target then
        Failure.ofFault (applyConversion conversion source target arg)
      else .error (.unsupportedOperator op)
    else .error (.operatorArity op op.arity 1)
  | .divMod signed source target, [left, right] => do
    if ← divModFits source target then
      Failure.ofFault (applyDivMod signed source target left right)
    else .error (.unsupportedOperator op)
  | _, _ => .error (.operatorArity op op.arity args.length)

end SymLift.IR.Op
