/-!
# Words

A word of `bits` bits is a natural number below `Word.size bits`.  Words are
at most `Word.maxBits` bits wide: a wider width counts as `Word.maxBits`.
This module holds the ways in and out of that range.

* `truncate` keeps the low bits of a number.
* `toSigned` reads a word in two's complement, and `ofSigned` writes an
  integer back.
* `UnaryOp`, `BinaryOp` and `CompareOp` name the operations on words, and
  `apply` and `holds` compute them.

Division follows SMT-LIB: a quotient by zero is all ones (or one, for a
negative signed dividend), and a remainder by zero is the dividend.
-/

namespace SymLift

namespace Word

/-! ## Range -/

/-- The widest word. -/
def maxBits : Nat := 128

/-- The number of words of `bits` bits. -/
def size (bits : Nat) : Nat := Nat.pow 2 (min bits maxBits)

/-- The low `bits` bits of `value`. -/
def truncate (bits value : Nat) : Nat := value % size bits

/-- The word with every bit set. -/
def allOnes (bits : Nat) : Nat := size bits - 1

/-- The value of a word in two's complement. -/
def toSigned (bits value : Nat) : Int :=
  if 2 * value < size bits then (value : Int) else (value : Int) - (size bits : Int)

/-- The word that is congruent to an integer. -/
def ofSigned (bits : Nat) (value : Int) : Nat := (value % (size bits : Int)).toNat

theorem size_pos (bits : Nat) : 0 < size bits :=
  Nat.two_pow_pos _

theorem truncate_lt (bits value : Nat) : truncate bits value < size bits :=
  Nat.mod_lt _ (size_pos bits)

theorem truncate_of_lt {bits value : Nat} (h : value < size bits) :
    truncate bits value = value :=
  Nat.mod_eq_of_lt h

end Word

/-! ## Operations -/

/-- An operation on one word. -/
inductive UnaryOp where
  /-- Every bit is flipped. -/
  | complement
  /-- Two's complement negation. -/
  | negate
  deriving DecidableEq

/-- An operation on two words of one width. -/
inductive BinaryOp where
  | add
  | sub
  | mul
  | udiv
  | sdiv
  | urem
  | srem
  | and
  | or
  | xor
  | shl
  | lshr
  | ashr
  deriving DecidableEq

/-- A comparison of two words of one width. -/
inductive CompareOp where
  | eq
  | ult
  | ule
  | slt
  | sle
  deriving DecidableEq

/-- The value of a unary operation. -/
def UnaryOp.apply (op : UnaryOp) (bits value : Nat) : Nat :=
  match op with
  | .complement => Word.allOnes bits - Word.truncate bits value
  | .negate => Word.truncate bits (Word.size bits - Word.truncate bits value)

/-- The signed quotient, rounded toward zero.  The quotient of the least
word by minus one wraps around to itself. -/
def Word.signedQuotient (bits left right : Nat) : Nat :=
  let dividend := Word.toSigned bits left
  let divisor := Word.toSigned bits right
  if divisor = 0 then
    if dividend < 0 then 1 else Word.allOnes bits
  else Word.ofSigned bits (dividend.tdiv divisor)

/-- The signed remainder.  It has the sign of the dividend. -/
def Word.signedRemainder (bits left right : Nat) : Nat :=
  let divisor := Word.toSigned bits right
  if divisor = 0 then left
  else Word.ofSigned bits ((Word.toSigned bits left).tmod divisor)

/-- The value of a binary operation.  A shift by the width or more leaves
no bit of the operand: the result is zero, or the sign in every place. -/
def BinaryOp.apply (op : BinaryOp) (bits left right : Nat) : Nat :=
  match op with
  | .add => Word.truncate bits (left + right)
  | .sub => Word.truncate bits (left + (Word.size bits - right))
  | .mul => Word.truncate bits (left * right)
  | .udiv => if right = 0 then Word.allOnes bits else left / right
  | .sdiv => Word.signedQuotient bits left right
  | .urem => if right = 0 then left else left % right
  | .srem => Word.signedRemainder bits left right
  | .and => left &&& right
  | .or => left ||| right
  | .xor => left ^^^ right
  | .shl => if bits ≤ right then 0 else Word.truncate bits (left <<< right)
  | .lshr => if bits ≤ right then 0 else left >>> right
  | .ashr =>
    if bits ≤ right then
      if Word.toSigned bits left < 0 then Word.allOnes bits else 0
    else Word.ofSigned bits (Word.toSigned bits left >>> right)

/-- The three shifts.  The second operand of a shift is an amount. -/
def BinaryOp.isShift : BinaryOp → Bool
  | .shl | .lshr | .ashr => true
  | _ => false

/-- The truth of a comparison. -/
def CompareOp.holds (op : CompareOp) (bits left right : Nat) : Bool :=
  match op with
  | .eq => left == right
  | .ult => left < right
  | .ule => left ≤ right
  | .slt => Word.toSigned bits left < Word.toSigned bits right
  | .sle => Word.toSigned bits left ≤ Word.toSigned bits right

end SymLift
