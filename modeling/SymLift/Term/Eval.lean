import SymLift.Term.Build

/-!
# Evaluation

A model assigns numbers to names.  `Term.eval` computes the value of a term
under a model.

* A variable reads the low bits of the number that the model gives it.
* An if-then-else evaluates the arm it takes, and only that one.  Every
  other term evaluates all its operands, from left to right.
* `Stuck.undetermined` is the answer when a variable has no number, or an
  operand has the wrong sort.
* `Stuck.fault` is the answer for a shift past the widest word.  Only terms
  wider than `Word.maxBits` have it.
-/

namespace SymLift

/-- An assignment of numbers to names. -/
abbrev Model := String → Option Nat

/-- The model that reads a list of pairs. -/
def Model.ofList (pairs : List (String × Nat)) : Model :=
  fun name => pairs.lookup name

/-- The value of a term. -/
inductive Value where
  | bool (value : Bool)
  | word (value width : Nat)
  deriving DecidableEq

/-- Why a term has no value. -/
inductive Stuck where
  /-- A free variable is unassigned, or an operand has the wrong sort. -/
  | undetermined
  /-- An operation was applied outside its domain. -/
  | fault (cause : Fault)
  deriving DecidableEq

namespace Value

/-- The number and the width of a bit-vector. -/
def toWord : Value → Except Stuck (Nat × Nat)
  | .word value width => .ok (value, width)
  | .bool _ => .error .undetermined

/-- The truth of a boolean. -/
def toBool : Value → Except Stuck Bool
  | .bool value => .ok value
  | .word .. => .error .undetermined

end Value

/-- A binary operation on evaluated operands.  A shift within the width of
its operand must stay within the widest word. -/
def BinaryOp.evalWords (op : BinaryOp) (bits left right : Nat) : Except Stuck Nat :=
  if op.isShift ∧ right < bits ∧ Word.maxBits ≤ right then .error (.fault .shiftTooFar)
  else .ok (op.apply bits left right)

namespace Term

mutual
/-- The value of a term under a model. -/
@[simp]
def eval (m : Model) : Term → Except Stuck Value
  | .const value width => .ok (.word value width)
  | .bool value => .ok (.bool value)
  | .var name width =>
    match m name with
    | some value => .ok (.word (Word.truncate width value) width)
    | none => .error .undetermined
  | .unary op arg => do
    let (value, width) ← (← arg.eval m).toWord
    .ok (.word (op.apply width value) width)
  | .binary op left right => do
    let (l, width) ← (← left.eval m).toWord
    let (r, _) ← (← right.eval m).toWord
    .ok (.word (← op.evalWords width l r) width)
  | .compare op left right => do
    let (l, width) ← (← left.eval m).toWord
    let (r, _) ← (← right.eval m).toWord
    .ok (.bool (op.holds width l r))
  | .not arg => do
    .ok (.bool (!(← (← arg.eval m).toBool)))
  | .conj terms => do
    .ok (.bool ((← evalAll m terms).all id))
  | .disj terms => do
    .ok (.bool ((← evalAll m terms).any id))
  | .ite cond thenArm elseArm => do
    if ← (← cond.eval m).toBool then thenArm.eval m else elseArm.eval m
  | .extract hi lo arg => do
    let (value, _) ← (← arg.eval m).toWord
    if Word.maxBits ≤ lo then .error (.fault .shiftTooFar)
    else .ok (.word (Word.truncate (hi - lo + 1) (value >>> lo)) (hi - lo + 1))
  | .concat high low => do
    let (h, highWidth) ← (← high.eval m).toWord
    let (l, lowWidth) ← (← low.eval m).toWord
    .ok (.word ((h <<< lowWidth) ||| l) (highWidth + lowWidth))
  | .zeroExt count arg => do
    let (value, width) ← (← arg.eval m).toWord
    .ok (.word value (width + count))
  | .signExt count arg => do
    let (value, width) ← (← arg.eval m).toWord
    .ok (.word (Word.ofSigned (width + count) (Word.toSigned width value)) (width + count))

/-- The truths of a list of booleans. -/
@[simp]
def evalAll (m : Model) : List Term → Except Stuck (List Bool)
  | [] => .ok []
  | t :: ts => do
    let truth ← (← t.eval m).toBool
    .ok (truth :: (← evalAll m ts))
end

/-- Whether a term evaluates to true.  A term without a value does not hold,
but a fault stays a fault. -/
def holds (m : Model) (t : Term) : Except Fault Bool :=
  match t.eval m with
  | .ok (.bool value) => .ok value
  | .ok (.word ..) | .error .undetermined => .ok false
  | .error (.fault cause) => .error cause

end Term

end SymLift
