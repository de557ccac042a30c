import SymLift.Flags.Helper
import SymLift.IR.Apply

/-!
# Flag helpers through checked constructors

`FlagBits` and `Helper.callWords` say what a helper gives, with constructors
that check nothing.  Here the same terms are built with checked constructors.
A function has the name of the one that it builds the result of, and is a
fault where a constructor is applied outside its domain.

`Helper.call` evaluates a helper.  The arguments are cut or extended to one
word first.
-/

namespace SymLift

open IR.Op (topPlace)

namespace FlagBuild

open FlagBits (Outcome carryPlace parityPlace adjustPlace zeroPlace signPlace overflowPlace)

/-! ## Single flags -/

def bit (arg : Term) (place : Nat) : Except Fault Term := Build.extract place place arg

def topBit (arg : Term) : Except Fault Term := do bit arg (← topPlace arg.width)

def truthBit (cond : Term) : Except Fault Term := Build.boolToBits 1 cond

def zeroFlag (result : Term) : Except Fault Term := do
  truthBit (← Build.compare .eq result (← Build.lit 0 result.width))

def parityFlag (result : Term) : Except Fault Term := do
  let odd ← (List.range' 1 7).foldlM
    (fun odd place => do Build.binary .xor odd (← bit result place)) (← bit result 0)
  .ok (Fold.unary .complement odd)

def adjustFlag (result left right : Term) : Except Fault Term := do
  bit (← Build.binary .xor (← Build.binary .xor result left) right) 4

def sumOverflow (result left right : Term) : Except Fault Term := do
  let differ ← Build.binary .xor left right
  topBit (← Build.binary .and (Fold.unary .complement differ) (← Build.binary .xor left result))

def differenceOverflow (result left right : Term) : Except Fault Term := do
  topBit (← Build.binary .and (← Build.binary .xor left right) (← Build.binary .xor left result))

/-! ## Operations -/

def ofOutcome (o : Outcome) : Except Fault FlagBits := do
  .ok {
    carry := o.carry
    parity := ← parityFlag o.result
    adjust := o.adjust
    zero := ← zeroFlag o.result
    sign := ← topBit o.result
    overflow := o.overflow }

def addOutcome (left right : Term) : Except Fault Outcome := do
  let result ← Build.binary .add left right
  .ok {
    result
    carry := ← truthBit (← Build.compare .ult result left)
    adjust := ← adjustFlag result left right
    overflow := ← sumOverflow result left right }

def subOutcome (left right : Term) : Except Fault Outcome := do
  let result ← Build.binary .sub left right
  .ok {
    result
    carry := ← truthBit (← Build.compare .ult left right)
    adjust := ← adjustFlag result left right
    overflow := ← differenceOverflow result left right }

/-- The old carry comes as a term of the width of the operands and as a
truth. -/
def adcOutcome (left masked wide wasSet : Term) : Except Fault Outcome := do
  let right ← Build.binary .xor masked wide
  let result ← Build.binary .add (← Build.binary .add left right) wide
  let carry ← Build.ite wasSet (← Build.compare .ule result left)
    (← Build.compare .ult result left)
  .ok {
    result
    carry := ← truthBit carry
    adjust := ← adjustFlag result left right
    overflow := ← sumOverflow result left right }

/-- The old borrow comes as a term of the width of the operands and as a
truth. -/
def sbbOutcome (left masked wide wasSet : Term) : Except Fault Outcome := do
  let right ← Build.binary .xor masked wide
  let result ← Build.binary .sub (← Build.binary .sub left right) wide
  let carry ← Build.ite wasSet (← Build.compare .ule left right) (← Build.compare .ult left right)
  .ok {
    result
    carry := ← truthBit carry
    adjust := ← adjustFlag result left right
    overflow := ← differenceOverflow result left right }

def stepOutcome (width : Nat) (result before oldCarry : Term) (overflowAt : Nat) :
    Except Fault Outcome := do
  .ok {
    result
    carry := oldCarry
    adjust := ← adjustFlag result before (← Build.lit 1 width)
    overflow := ← truthBit (← Build.compare .eq result (← Build.lit overflowAt width)) }

def shiftOutcome (result previous lost : Term) : Except Fault Outcome := do
  .ok {
    result
    carry := lost
    adjust := ← Build.lit 0 1
    overflow := ← topBit (← Build.binary .xor result previous) }

/-- The outcome of an operation on the low bits of its operands. -/
def outcome (op : ThunkOp) (width : Nat) (left right oldCarry wide wasSet : Term) :
    Except Fault Outcome := do
  match op with
  | .add => addOutcome left right
  | .sub => subOutcome left right
  | .adc => adcOutcome left right wide wasSet
  | .sbb => sbbOutcome left right wide wasSet
  | .inc =>
    stepOutcome width left (← Build.binary .sub left (← Build.lit 1 width)) oldCarry
      (Word.size (width - 1))
  | .dec =>
    stepOutcome width left (← Build.binary .add left (← Build.lit 1 width)) oldCarry
      (Word.allOnes (width - 1))
  | .shl => shiftOutcome left right (← topBit right)
  | .shr => shiftOutcome left right (← bit right 0)
  | .logic | .copy =>
    let zero ← Build.lit 0 1
    .ok { result := left, carry := zero, adjust := zero, overflow := zero }

def ofThunk (op : ThunkOp) (width : Nat) (dep1 dep2 ndep : Term) : Except Fault FlagBits := do
  if op = .copy then
    .ok {
      carry := ← bit dep1 carryPlace
      parity := ← bit dep1 parityPlace
      adjust := ← bit dep1 adjustPlace
      zero := ← bit dep1 zeroPlace
      sign := ← bit dep1 signPlace
      overflow := ← bit dep1 overflowPlace }
  else
    let top ← topPlace width
    let left ← Build.extract top 0 dep1
    let right ← Build.extract top 0 dep2
    let oldCarry ← bit ndep carryPlace
    let wide ← Build.zeroExt top oldCarry
    let wasSet ← Build.compare .eq oldCarry (← Build.lit 1 1)
    ofOutcome (← outcome op width left right oldCarry wide wasSet)

/-! ## What is read off the flags -/

def placed (word : Nat) (flag : Term) (place : Nat) : Except Fault Term := do
  Build.shift .shl (← Build.zeroExt (← topPlace word) flag) (← Build.lit place word)

def pack (f : FlagBits) (word : Nat) : Except Fault Term := do
  let carry ← placed word f.carry carryPlace
  let parity ← placed word f.parity parityPlace
  let adjust ← placed word f.adjust adjustPlace
  let zero ← placed word f.zero zeroPlace
  let sign ← placed word f.sign signPlace
  let overflow ← placed word f.overflow overflowPlace
  let flags ← Build.binary .or carry parity
  let flags ← Build.binary .or flags adjust
  let flags ← Build.binary .or flags zero
  let flags ← Build.binary .or flags sign
  Build.binary .or flags overflow

def conditionBit (f : FlagBits) (code : Nat) : Except Fault Term := do
  let base ←
    match code / 2 % 8 with
    | 0 => .ok f.overflow
    | 1 => .ok f.carry
    | 2 => .ok f.zero
    | 3 => Build.binary .or f.carry f.zero
    | 4 => .ok f.sign
    | 5 => .ok f.parity
    | 6 => Build.binary .xor f.sign f.overflow
    | _ => do Build.binary .or (← Build.binary .xor f.sign f.overflow) f.zero
  .ok (if code % 2 = 1 then Fold.unary .complement base else base)

def condition (f : FlagBits) (code : Term) : Except Fault Term :=
  match code.addressValue? with
  | some value => conditionBit f (value % 16)
  | none => do
    (List.range 15).foldrM
      (fun c rest => do
        let test ← Build.compare .eq code (← Build.lit c code.width)
        Build.ite test (← conditionBit f c) rest)
      (← conditionBit f 15)

/-! ## Operations of a thunk -/

def isThunkOp (ccOp : Term) (op : Nat) : Except Fault Term := do
  Build.compare .eq ccOp (← Build.lit op ccOp.width)

def atThunkOp (g : Guest) (f : ThunkOp → Nat → Except Fault Term) (op : Nat) :
    Except Fault Term :=
  match g.decodeThunk? op with
  | some (thunkOp, width) => f thunkOp width
  | none => f .copy g.wordBits

def selectThunkOp (g : Guest) (ccOp : Term) (f : ThunkOp → Nat → Except Fault Term) :
    Except Fault Term := do
  (List.range' 1 (g.modeledOps - 1)).foldrM
    (fun op rest => do Build.ite (← isThunkOp ccOp op) (← atThunkOp g f op) rest)
    (← f .copy g.wordBits)

def isModeled (g : Guest) (ccOp : Term) : Except Fault Term := do
  let tests ← (List.range' 1 (g.modeledOps - 1)).reverse.mapM (isThunkOp ccOp)
  Build.disj ((← isThunkOp ccOp 0) :: tests)

def overThunkOp (h : Helper) (ccOp : Term) (f : ThunkOp → Nat → Except Fault Term) :
    Except Failure (Term × List Term) :=
  match ccOp.addressValue? with
  | some op =>
    match h.guest.decodeThunk? op with
    | some (thunkOp, width) => do .ok (← f thunkOp width, [])
    | none => .error (.unsupportedFlagThunk h op)
  | none => do .ok (← selectThunkOp h.guest ccOp f, [← isModeled h.guest ccOp])

def codeConstraints (code : Term) : Except Fault (List Term) := do
  if code.isConstant then .ok []
  else .ok [← Build.compare .ult code (← Build.lit 16 code.width)]

/-- A flag at the bottom of a word. -/
def inWord (g : Guest) (flag : Term) : Except Fault Term := do
  Build.zeroExt (← topPlace g.wordBits) flag

def callWords (h : Helper) (args : List Term) : Except Failure (Term × List Term) :=
  match h.query, args with
  | .condition, [code, ccOp, dep1, dep2, ndep] => do
    let (value, needs) ← overThunkOp h ccOp fun op width => do
      condition (← ofThunk op width dep1 dep2 ndep) code
    let codeNeeds ← codeConstraints code
    .ok (← inWord h.guest value, needs ++ codeNeeds)
  | .flags, [ccOp, dep1, dep2, ndep] =>
    overThunkOp h ccOp fun op width => do
      pack (← ofThunk op width dep1 dep2 ndep) h.guest.wordBits
  | .carry, [ccOp, dep1, dep2, ndep] =>
    overThunkOp h ccOp fun op width => do
      inWord h.guest (← ofThunk op width dep1 dep2 ndep).carry
  | _, _ => .error (.callHelperArity h h.arity args.length)

end FlagBuild

/-- The value of a helper, and what it relies on. -/
def Helper.call (h : Helper) (args : List Term) : Except Failure (Term × List Term) := do
  let words : List Term ← (args.mapM (Build.resize h.guest.wordBits) : Except Fault _)
  FlagBuild.callWords h words

end SymLift
