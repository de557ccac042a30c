import Mathlib
import SymLift.Word

/-!
# Words are bit-vectors

A word of `w ≤ Word.maxBits` bits is the number of a bit-vector of `w` bits.
This module ties the operations of `SymLift.Word`, which compute on numbers,
to the operations on bit-vectors.

* `UnaryOp.onBits`, `BinaryOp.onBits` and `CompareOp.onBits` are the
  operations of SMT-LIB.  Division by zero and shifts past the width are as
  SMT-LIB has them.
* `UnaryOp.apply_toNat`, `BinaryOp.apply_toNat` and `CompareOp.holds_toNat`
  say that a word operation on the numbers of bit-vectors is the number of
  the operation on the bit-vectors.  Callers cite these three, and do not
  open the operations.
-/

namespace SymLift

variable {w : Nat}

namespace Word

/-! ## The range of a word -/

theorem size_eq (hw : w ≤ maxBits) : size w = 2 ^ w := by
  rw [size, Nat.min_eq_left hw]
  rfl

theorem toNat_lt_size (hw : w ≤ maxBits) (x : BitVec w) : x.toNat < size w := by
  rw [size_eq hw]
  exact x.isLt

theorem truncate_eq (hw : w ≤ maxBits) (value : Nat) :
    truncate w value = (BitVec.ofNat w value).toNat := by
  rw [truncate, size_eq hw, BitVec.toNat_ofNat]

theorem truncate_toNat (hw : w ≤ maxBits) (x : BitVec w) : truncate w x.toNat = x.toNat :=
  truncate_of_lt (toNat_lt_size hw x)

theorem allOnes_eq (hw : w ≤ maxBits) : allOnes w = (BitVec.allOnes w).toNat := by
  rw [allOnes, size_eq hw, BitVec.toNat_allOnes]

/-! ## Two's complement -/

theorem toSigned_toNat (hw : w ≤ maxBits) (x : BitVec w) : toSigned w x.toNat = x.toInt := by
  rw [toSigned, size_eq hw, BitVec.toInt_eq_toNat_cond]

theorem ofSigned_eq (hw : w ≤ maxBits) (value : Int) :
    ofSigned w value = (BitVec.ofInt w value).toNat := by
  rw [ofSigned, size_eq hw, BitVec.toNat_ofInt]

/-- A bit-vector is the word of any integer that it is congruent to. -/
theorem ofSigned_eq_of_toInt (hw : w ≤ maxBits) {x : BitVec w} {value : Int}
    (h : x.toInt = value.bmod (2 ^ w)) : ofSigned w value = x.toNat := by
  have hx : BitVec.ofInt w value = x := BitVec.eq_of_toInt_eq (by rw [BitVec.toInt_ofInt, h])
  rw [ofSigned_eq hw, hx]

end Word

/-! ## The operations of SMT-LIB -/

/-- A unary operation on bit-vectors. -/
def UnaryOp.onBits (op : UnaryOp) (x : BitVec w) : BitVec w :=
  match op with
  | .complement => ~~~x
  | .negate => -x

/-- A binary operation on bit-vectors.  The second operand of a shift is its
amount. -/
def BinaryOp.onBits (op : BinaryOp) (x y : BitVec w) : BitVec w :=
  match op with
  | .add => x + y
  | .sub => x - y
  | .mul => x * y
  | .udiv => x.smtUDiv y
  | .sdiv => x.smtSDiv y
  | .urem => x % y
  | .srem => x.srem y
  | .and => x &&& y
  | .or => x ||| y
  | .xor => x ^^^ y
  | .shl => x <<< y
  | .lshr => x >>> y
  | .ashr => x.sshiftRight' y

/-- A comparison of bit-vectors. -/
def CompareOp.onBits (op : CompareOp) (x y : BitVec w) : Bool :=
  match op with
  | .eq => x == y
  | .ult => x.ult y
  | .ule => x.ule y
  | .slt => x.slt y
  | .sle => x.sle y

/-! ## Words and bit-vectors agree -/

theorem UnaryOp.apply_toNat (hw : w ≤ Word.maxBits) (op : UnaryOp) (x : BitVec w) :
    op.apply w x.toNat = (op.onBits x).toNat := by
  cases op with
  | complement =>
    rw [UnaryOp.apply, UnaryOp.onBits, Word.truncate_toNat hw, Word.allOnes_eq hw,
      BitVec.toNat_allOnes, BitVec.toNat_not]
  | negate =>
    rw [UnaryOp.apply, UnaryOp.onBits, Word.truncate_toNat hw, Word.truncate, Word.size_eq hw,
      BitVec.toNat_neg]

/-- A divisor other than zero divides as in two's complement. -/
theorem Word.smtSDiv_eq_sdiv {x y : BitVec w} (hy : y ≠ 0#w) : x.smtSDiv y = x.sdiv y := by
  have hn : -y ≠ 0#w := fun h => hy (BitVec.neg_eq_zero_iff.1 h)
  rw [BitVec.smtSDiv_eq, BitVec.sdiv_eq]
  cases x.msb <;> cases y.msb <;>
    simp only [BitVec.smtUDiv_eq, if_neg hy, if_neg hn, BitVec.udiv_eq]

/-- The signed quotient is the quotient of SMT-LIB.  Only the quotient by
zero is not that of the integers. -/
theorem Word.signedQuotient_toNat (hw : w ≤ maxBits) (x y : BitVec w) :
    signedQuotient w x.toNat y.toNat = (x.smtSDiv y).toNat := by
  simp only [signedQuotient, toSigned_toNat hw]
  split
  · rename_i hy
    have hy0 : y = 0#w := BitVec.eq_of_toInt_eq (hy.trans BitVec.toInt_zero.symm)
    rw [hy0, BitVec.smtSDiv_zero, BitVec.slt_zero_eq_msb, BitVec.msb_eq_toInt]
    have hpos : w ≠ 0 → 1 % 2 ^ w = 1 := fun h => Nat.one_mod_two_pow (Nat.pos_of_ne_zero h)
    by_cases hx : x.toInt < 0
    · have hw0 : w ≠ 0 := by
        rintro rfl
        rw [BitVec.of_length_zero (x := x)] at hx
        exact absurd hx (by decide)
      rw [if_pos hx, if_pos (decide_eq_true hx), BitVec.toNat_ofNat, hpos hw0]
    · rw [if_neg hx, if_neg (by simpa using hx), allOnes_eq hw]
  · rename_i hy
    have hy0 : y ≠ 0#w := fun h => hy (h ▸ BitVec.toInt_zero)
    rw [smtSDiv_eq_sdiv hy0]
    exact ofSigned_eq_of_toInt hw (BitVec.toInt_sdiv x y)

theorem Word.signedRemainder_toNat (hw : w ≤ maxBits) (x y : BitVec w) :
    signedRemainder w x.toNat y.toNat = (x.srem y).toNat := by
  simp only [signedRemainder, toSigned_toNat hw]
  split
  · rename_i hy
    have hy0 : y = 0#w := BitVec.eq_of_toInt_eq (hy.trans BitVec.toInt_zero.symm)
    rw [hy0, BitVec.srem_zero]
  · rw [← BitVec.toInt_srem, ofSigned_eq hw, BitVec.ofInt_toInt]

theorem BinaryOp.apply_toNat (hw : w ≤ Word.maxBits) (op : BinaryOp) (x y : BitVec w) :
    op.apply w x.toNat y.toNat = (op.onBits x y).toNat := by
  cases op with
  | add => rw [BinaryOp.apply, BinaryOp.onBits, Word.truncate, Word.size_eq hw, BitVec.toNat_add]
  | sub =>
    rw [BinaryOp.apply, BinaryOp.onBits, Word.truncate, Word.size_eq hw, BitVec.toNat_sub,
      Nat.add_comm]
  | mul => rw [BinaryOp.apply, BinaryOp.onBits, Word.truncate, Word.size_eq hw, BitVec.toNat_mul]
  | udiv =>
    rw [BinaryOp.apply, BinaryOp.onBits, BitVec.smtUDiv_eq]
    by_cases hy : y = 0#w
    · have hn : y.toNat = 0 := by rw [hy, BitVec.toNat_zero]
      rw [if_pos hn, if_pos hy, Word.allOnes_eq hw]
    · have hn : y.toNat ≠ 0 := fun h => hy (BitVec.eq_of_toNat_eq (h.trans BitVec.toNat_zero.symm))
      rw [if_neg hn, if_neg hy, BitVec.toNat_udiv]
  | urem =>
    rw [BinaryOp.apply, BinaryOp.onBits, BitVec.toNat_umod]
    split
    · rename_i hy
      rw [hy, Nat.mod_zero]
    · rfl
  | sdiv => exact Word.signedQuotient_toNat hw x y
  | srem => exact Word.signedRemainder_toNat hw x y
  | and => rw [BinaryOp.apply, BinaryOp.onBits, BitVec.toNat_and]
  | or => rw [BinaryOp.apply, BinaryOp.onBits, BitVec.toNat_or]
  | xor => rw [BinaryOp.apply, BinaryOp.onBits, BitVec.toNat_xor]
  | shl =>
    rw [BinaryOp.apply, BinaryOp.onBits, Word.truncate, Word.size_eq hw, BitVec.shiftLeft_eq',
      BitVec.toNat_shiftLeft]
    split
    · rename_i hy
      rw [Nat.shiftLeft_eq, Nat.mod_eq_zero_of_dvd]
      exact Dvd.dvd.mul_left (Nat.pow_dvd_pow 2 hy) _
    · rfl
  | lshr =>
    rw [BinaryOp.apply, BinaryOp.onBits, BitVec.ushiftRight_eq', BitVec.toNat_ushiftRight]
    split
    · rename_i hy
      have hx : x.toNat < 2 ^ y.toNat :=
        Nat.lt_of_lt_of_le x.isLt (Nat.pow_le_pow_right (by decide) hy)
      rw [Nat.shiftRight_eq_div_pow, Nat.div_eq_of_lt hx]
    · rfl
  | ashr =>
    rw [BinaryOp.apply, BinaryOp.onBits, BitVec.sshiftRight_eq', Word.toSigned_toNat hw]
    split
    · rename_i hy
      by_cases hx : x.toInt < 0
      · have hmsb : x.msb = true := by rw [BitVec.msb_eq_toInt]; exact decide_eq_true hx
        rw [if_pos hx, Word.allOnes_eq hw, BitVec.sshiftRight_eq_of_msb_true hmsb,
          BitVec.ushiftRight_eq_zero hy, BitVec.not_zero]
      · have hmsb : x.msb = false := by rw [BitVec.msb_eq_toInt]; exact decide_eq_false hx
        rw [if_neg hx, BitVec.sshiftRight_eq_of_msb_false hmsb, BitVec.ushiftRight_eq_zero hy]
        rfl
    · rw [← BitVec.toInt_sshiftRight, Word.ofSigned_eq hw, BitVec.ofInt_toInt]

theorem CompareOp.holds_toNat (hw : w ≤ Word.maxBits) (op : CompareOp) (x y : BitVec w) :
    op.holds w x.toNat y.toNat = op.onBits x y := by
  cases op with
  | eq => rw [CompareOp.holds, CompareOp.onBits, Bool.eq_iff_iff]; simp [BitVec.toNat_inj]
  | ult => rfl
  | ule => rfl
  | slt => simp only [CompareOp.holds, CompareOp.onBits, BitVec.slt, Word.toSigned_toNat hw]
  | sle => simp only [CompareOp.holds, CompareOp.onBits, BitVec.sle, Word.toSigned_toNat hw]

end SymLift
