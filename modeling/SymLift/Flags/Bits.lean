import SymLift.Flags.Thunk

/-!
# Flags from the thunk

`FlagBits` holds each flag as a term of one bit.

* `FlagBits.ofThunk` computes the flags that an operation of some data width
  sets, from the three operands in the thunk.
* `FlagBits.pack` puts the flags into one word, each in its place.
* `FlagBits.condition` is the truth of a condition code.

The operands are terms of one word, and a data width is at most a word.
Every constructor call is then within its domain, so nothing here fails.
-/

namespace SymLift

open Fold

/-- The flags, one bit each. -/
structure FlagBits where
  carry : Term
  parity : Term
  adjust : Term
  zero : Term
  sign : Term
  overflow : Term

namespace FlagBits

/-! ## The place of each flag in a word -/

def carryPlace : Nat := 0
def parityPlace : Nat := 2
def adjustPlace : Nat := 4
def zeroPlace : Nat := 6
def signPlace : Nat := 7
def overflowPlace : Nat := 11

/-! ## Single flags -/

/-- One bit of a term. -/
def bit (arg : Term) (place : Nat) : Term := extract place place arg

/-- The highest bit of a term. -/
def topBit (arg : Term) : Term := bit arg (arg.width - 1)

/-- One bit that tells whether a term is true. -/
def truthBit (cond : Term) : Term := boolToBits 1 cond

/-- Set when a result is zero. -/
def zeroFlag (result : Term) : Term := truthBit (compare .eq result (lit 0 result.width))

/-- Set when the low byte of a result has an even number of set bits. -/
def parityFlag (result : Term) : Term :=
  unary .complement
    ((List.range' 1 7).foldl (fun odd place => binary .xor odd (bit result place)) (bit result 0))

/-- Set when the low four bits of the operands carry into the result. -/
def adjustFlag (result left right : Term) : Term :=
  bit (binary .xor (binary .xor result left) right) 4

/-- Set when a sum of signed operands is out of range. -/
def sumOverflow (result left right : Term) : Term :=
  topBit (binary .and (unary .complement (binary .xor left right)) (binary .xor left result))

/-- Set when a difference of signed operands is out of range. -/
def differenceOverflow (result left right : Term) : Term :=
  topBit (binary .and (binary .xor left right) (binary .xor left result))

/-! ## Operations -/

/-- The flags that an operation computes itself, and its result, which gives
the others. -/
structure Outcome where
  result : Term
  carry : Term
  adjust : Term
  overflow : Term

/-- All flags of an outcome. -/
def ofOutcome (o : Outcome) : FlagBits where
  carry := o.carry
  parity := parityFlag o.result
  adjust := o.adjust
  zero := zeroFlag o.result
  sign := topBit o.result
  overflow := o.overflow

/-- A sum without an old carry. -/
def addOutcome (left right : Term) : Outcome :=
  let result := binary .add left right
  { result
    carry := truthBit (compare .ult result left)
    adjust := adjustFlag result left right
    overflow := sumOverflow result left right }

/-- A difference without an old borrow. -/
def subOutcome (left right : Term) : Outcome :=
  let result := binary .sub left right
  { result
    carry := truthBit (compare .ult left right)
    adjust := adjustFlag result left right
    overflow := differenceOverflow result left right }

/-- A sum with the old carry, which is one bit.  The thunk holds the right
operand with the old carry already applied to it by exclusive or. -/
def adcOutcome (width : Nat) (left masked oldCarry : Term) : Outcome :=
  let wide := zeroExt (width - 1) oldCarry
  let wasSet := compare .eq oldCarry (lit 1 1)
  let right := binary .xor masked wide
  let result := binary .add (binary .add left right) wide
  { result
    carry := truthBit (ite wasSet (compare .ule result left) (compare .ult result left))
    adjust := adjustFlag result left right
    overflow := sumOverflow result left right }

/-- A difference with the old borrow, which is one bit.  The thunk holds the
right operand with the old borrow already applied to it by exclusive or. -/
def sbbOutcome (width : Nat) (left masked oldCarry : Term) : Outcome :=
  let wide := zeroExt (width - 1) oldCarry
  let wasSet := compare .eq oldCarry (lit 1 1)
  let right := binary .xor masked wide
  let result := binary .sub (binary .sub left right) wide
  { result
    carry := truthBit (ite wasSet (compare .ule left right) (compare .ult left right))
    adjust := adjustFlag result left right
    overflow := differenceOverflow result left right }

/-- A step up or down to `result`.  The carry stays what it was. -/
def stepOutcome (width : Nat) (result before oldCarry : Term) (overflowAt : Nat) : Outcome where
  result := result
  carry := oldCarry
  adjust := adjustFlag result before (lit 1 width)
  overflow := truthBit (compare .eq result (lit overflowAt width))

/-- A shift to `result`.  `previous` is the operand shifted by one bit less,
and `lost` the bit of it that is shifted out. -/
def shiftOutcome (result previous lost : Term) : Outcome where
  result := result
  carry := lost
  adjust := lit 0 1
  overflow := topBit (binary .xor result previous)

/-- The flags that the thunk of an operation stands for.  `dep1` and `dep2`
are its operands, or its result, and `ndep` holds the old flags. -/
def ofThunk (op : ThunkOp) (width : Nat) (dep1 dep2 ndep : Term) : FlagBits :=
  let left := extract (width - 1) 0 dep1
  let right := extract (width - 1) 0 dep2
  let oldCarry := bit ndep carryPlace
  match op with
  | .copy =>
    { carry := bit dep1 carryPlace
      parity := bit dep1 parityPlace
      adjust := bit dep1 adjustPlace
      zero := bit dep1 zeroPlace
      sign := bit dep1 signPlace
      overflow := bit dep1 overflowPlace }
  | .add => ofOutcome (addOutcome left right)
  | .sub => ofOutcome (subOutcome left right)
  | .adc => ofOutcome (adcOutcome width left right oldCarry)
  | .sbb => ofOutcome (sbbOutcome width left right oldCarry)
  | .logic =>
    ofOutcome { result := left, carry := lit 0 1, adjust := lit 0 1, overflow := lit 0 1 }
  | .inc =>
    ofOutcome (stepOutcome width left (binary .sub left (lit 1 width)) oldCarry
      (Word.size (width - 1)))
  | .dec =>
    ofOutcome (stepOutcome width left (binary .add left (lit 1 width)) oldCarry
      (Word.allOnes (width - 1)))
  | .shl => ofOutcome (shiftOutcome left right (topBit right))
  | .shr => ofOutcome (shiftOutcome left right (bit right 0))

/-! ## What is read off the flags -/

/-- A flag in its place in a word. -/
def placed (word : Nat) (flag : Term) (place : Nat) : Term :=
  shift .shl (zeroExt (word - 1) flag) (lit place word)

/-- The flags in one word. -/
def pack (f : FlagBits) (word : Nat) : Term :=
  let carry := placed word f.carry carryPlace
  let parity := placed word f.parity parityPlace
  let adjust := placed word f.adjust adjustPlace
  let zero := placed word f.zero zeroPlace
  let sign := placed word f.sign signPlace
  let overflow := placed word f.overflow overflowPlace
  binary .or (binary .or (binary .or (binary .or (binary .or carry parity) adjust) zero) sign)
    overflow

/-- The truth of a condition code, one bit.  An odd code negates the even
code below it. -/
def conditionBit (f : FlagBits) (code : Nat) : Term :=
  let base :=
    match code / 2 % 8 with
    | 0 => f.overflow
    | 1 => f.carry
    | 2 => f.zero
    | 3 => binary .or f.carry f.zero
    | 4 => f.sign
    | 5 => f.parity
    | 6 => binary .xor f.sign f.overflow
    | _ => binary .or (binary .xor f.sign f.overflow) f.zero
  if code % 2 = 1 then unary .complement base else base

/-- The truth of a condition whose code is a term.  A known code counts by
its low four bits.  A code that is not known selects among the sixteen. -/
def condition (f : FlagBits) (code : Term) : Term :=
  match code.addressValue? with
  | some value => f.conditionBit (value % 16)
  | none =>
    (List.range 15).foldr
      (fun c rest => ite (compare .eq code (lit c code.width)) (f.conditionBit c) rest)
      (f.conditionBit 15)

end FlagBits

end SymLift
