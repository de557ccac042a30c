import Mathlib

/-!
# Carry, borrow and overflow

The flags of a sum and of a difference are facts about the numbers of the
operands: whether the exact result fits the word, as an unsigned number, as
a signed one, and in its low four bits.  Lifted code finds these out by
comparing the operands with the result, and by combining their bits.  The
lemmas here say that it finds the same.

`Totals l r c z lost` says that `z` is the sum of `l`, `r` and a carry, and
whether a bit of weight `2 ^ n` was lost.  A difference is such a sum read
the other way around, so all lemmas are about `Totals`.
-/

namespace SymLift

variable {n : Nat} {l r z : BitVec n} {c : Bool}

/-- `z` is `l + r` with a carry, and `lost` tells whether a bit was lost. -/
structure Totals (l r : BitVec n) (c : Bool) (z : BitVec n) (lost : Bool) : Prop where
  eq : l.toNat + r.toNat + c.toNat = z.toNat + 2 ^ n * lost.toNat

theorem toNat_ofNat_toNat (hn : 0 < n) (c : Bool) : (BitVec.ofNat n c.toNat).toNat = c.toNat := by
  rw [BitVec.toNat_ofNat, Nat.mod_eq_of_lt]
  exact (Bool.toNat_le c).trans_lt (Nat.one_lt_two_pow (Nat.pos_iff_ne_zero.1 hn))

/-- A sum loses a bit if its exact value does not fit. -/
theorem totals_add (hn : 0 < n) (l r : BitVec n) (c : Bool) :
    Totals l r c (l + r + BitVec.ofNat n c.toNat)
      (decide (2 ^ n ≤ l.toNat + r.toNat + c.toNat)) where
  eq := by
    have hl := l.isLt
    have hr := r.isLt
    have hc := Bool.toNat_le c
    rw [BitVec.toNat_add, BitVec.toNat_add, toNat_ofNat_toNat hn, Nat.mod_add_mod]
    by_cases hlost : 2 ^ n ≤ l.toNat + r.toNat + c.toNat
    · rw [decide_eq_true hlost, Bool.toNat_true, Nat.mul_one, Nat.mod_eq_sub_mod hlost,
        Nat.mod_eq_of_lt (by omega)]
      omega
    · rw [decide_eq_false hlost, Bool.toNat_false, Nat.mul_zero, Nat.mod_eq_of_lt (by omega)]
      rfl

/-- The left operand of a difference is the sum of the others, which loses a
bit if the difference borrows. -/
theorem totals_sub (hn : 0 < n) (l r : BitVec n) (c : Bool) :
    Totals (l - r - BitVec.ofNat n c.toNat) r c l (decide (l.toNat < r.toNat + c.toNat)) where
  eq := by
    have hl := l.isLt
    have hr := r.isLt
    have hc := Bool.toNat_le c
    have hpow := Nat.one_lt_two_pow (Nat.pos_iff_ne_zero.1 hn)
    rw [BitVec.toNat_sub', BitVec.toNat_sub', toNat_ofNat_toNat hn, Nat.mod_add_mod]
    by_cases hlost : l.toNat < r.toNat + c.toNat
    · rw [decide_eq_true hlost, Bool.toNat_true, Nat.mul_one]
      rcases Nat.lt_or_ge (l.toNat + (2 ^ n - r.toNat) + (2 ^ n - c.toNat)) (2 ^ n) with h | h
      · rw [Nat.mod_eq_of_lt h]
        omega
      · rw [Nat.mod_eq_sub_mod h, Nat.mod_eq_of_lt (by omega)]
        omega
    · rw [decide_eq_false hlost, Bool.toNat_false, Nat.mul_zero, Nat.mod_eq_sub_mod (by omega),
        Nat.mod_eq_sub_mod (by omega), Nat.mod_eq_of_lt (by omega)]
      omega

namespace Totals

variable {lost : Bool}

theorem comm (h : Totals l r c z lost) : Totals r l c z lost where
  eq := by rw [Nat.add_comm r.toNat, h.eq]

/-! ## A lost bit is found by comparing -/

theorem lost_eq (h : Totals l r c z lost) : lost = if c then z.ule l else z.ult l := by
  have heq := h.eq
  have hr := r.isLt
  have hz := z.isLt
  cases c with
  | false =>
    show lost = decide (z.toNat < l.toNat)
    cases lost with
    | false =>
      rw [Bool.toNat_false] at heq
      exact (decide_eq_false (by omega)).symm
    | true =>
      rw [Bool.toNat_false, Bool.toNat_true] at heq
      exact (decide_eq_true (by omega)).symm
  | true =>
    show lost = decide (z.toNat ≤ l.toNat)
    cases lost with
    | false =>
      rw [Bool.toNat_false, Bool.toNat_true] at heq
      exact (decide_eq_false (by omega)).symm
    | true =>
      rw [Bool.toNat_true] at heq
      exact (decide_eq_true (by omega)).symm

end Totals

/-! ## A half carry is found in the fifth bit -/

theorem eq_of_toNat_eq {a b : Bool} (h : a.toNat = b.toNat) : a = b := by
  cases a <;> cases b <;> first | rfl | cases h

theorem toNat_bne (a b : Bool) : (a ^^ b).toNat = (a.toNat + b.toNat) % 2 := by
  cases a <;> cases b <;> rfl

theorem toNat_getLsbD_four (x : BitVec n) : (x.getLsbD 4).toNat = x.toNat % 32 / 16 := by
  rw [BitVec.getLsbD, Nat.toNat_testBit]
  omega

theorem toNat_decide (p : Prop) [Decidable p] : (decide p).toNat = if p then 1 else 0 := by
  by_cases h : p <;> simp [h]

theorem toNat_xor_four (x y z : BitVec n) : ((x ^^^ y ^^^ z).getLsbD 4).toNat =
    ((x.toNat % 32 / 16 + y.toNat % 32 / 16) % 2 + z.toNat % 32 / 16) % 2 := by
  rw [BitVec.getLsbD_xor, BitVec.getLsbD_xor, toNat_bne, toNat_bne, toNat_getLsbD_four,
    toNat_getLsbD_four, toNat_getLsbD_four]

namespace Totals

variable {lost : Bool}

theorem mod_eq (hn : 5 ≤ n) (h : Totals l r c z lost) :
    (l.toNat % 32 + r.toNat % 32 + c.toNat) % 32 = z.toNat % 32 := by
  obtain ⟨k, hk⟩ : 32 ∣ 2 ^ n := Nat.pow_dvd_pow 2 hn
  have heq := h.eq
  rw [hk, Nat.mul_assoc] at heq
  omega

theorem half_eq (hn : 5 ≤ n) (h : Totals l r c z lost) :
    (z ^^^ l ^^^ r).getLsbD 4 = decide (16 ≤ l.toNat % 16 + r.toNat % 16 + c.toNat) := by
  have hmod := h.mod_eq hn
  have hc := Bool.toNat_le c
  apply eq_of_toNat_eq
  rw [toNat_xor_four, toNat_decide]
  split <;> omega

/-- A half borrow of a difference, whose left operand is the sum. -/
theorem half_borrow_eq (hn : 5 ≤ n) (h : Totals l r c z lost) :
    (l ^^^ z ^^^ r).getLsbD 4 = decide (z.toNat % 16 < r.toNat % 16 + c.toNat) := by
  have hmod := h.mod_eq hn
  have hc := Bool.toNat_le c
  apply eq_of_toNat_eq
  rw [toNat_xor_four, toNat_decide]
  split <;> omega

end Totals

/-! ## Overflow is found in the signs -/

theorem two_pow_eq (hn : 0 < n) : 2 ^ n = 2 * 2 ^ (n - 1) := by
  rw [← Nat.pow_succ', Nat.succ_eq_add_one, Nat.sub_add_cancel hn]

/-- The sign of a word is its bit of weight `2 ^ (n - 1)`. -/
theorem msb_bounds (hn : 0 < n) (x : BitVec n) :
    2 ^ (n - 1) * x.msb.toNat ≤ x.toNat ∧ x.toNat < 2 ^ (n - 1) + 2 ^ (n - 1) * x.msb.toNat := by
  have hx := x.isLt
  rw [two_pow_eq hn] at hx
  rw [BitVec.msb_eq_decide, toNat_decide]
  split <;> omega

theorem toInt_eq_msb (x : BitVec n) : x.toInt = (x.toNat : Int) - 2 ^ n * x.msb.toNat := by
  rw [BitVec.toInt_eq_msb_cond]
  cases x.msb <;> simp

/-- A signed number that `n` bits do not hold. -/
def OutOfRange (n : Nat) (value : Int) : Prop := value < -2 ^ (n - 1) ∨ 2 ^ (n - 1) ≤ value

instance (value : Int) : Decidable (OutOfRange n value) := inferInstanceAs (Decidable (_ ∨ _))

/-- A number that is a signed word, or off by the size of all words if it was
moved, is out of range if it was moved. -/
theorem outOfRange_iff (hn : 0 < n) (x : BitVec n) {value : Int} {moved : Prop}
    (h : moved ∧ (value = x.toInt + 2 ^ n ∨ value = x.toInt - 2 ^ n) ∨ ¬moved ∧ value = x.toInt) :
    OutOfRange n value ↔ moved := by
  have hle := BitVec.le_two_mul_toInt (x := x)
  have hlt := BitVec.two_mul_toInt_lt (x := x)
  have hpow : (2 : Int) ^ n = 2 * 2 ^ (n - 1) := by exact_mod_cast two_pow_eq hn
  rw [hpow] at hle hlt h
  unfold OutOfRange
  generalize (2 : Int) ^ (n - 1) = half at *
  rcases h with ⟨hmoved, hvalue⟩ | ⟨hmoved, hvalue⟩
  · exact iff_of_true (by omega) hmoved
  · exact iff_of_false (by omega) hmoved

/-- The operands have one sign and the result has the other. -/
def SignsClash (l r z : BitVec n) : Prop := l.msb = r.msb ∧ l.msb ≠ z.msb

namespace Totals

variable {lost : Bool}

/-- The exact signed sum is the signed result unless the signs clash. -/
theorem toInt_eq (hn : 0 < n) (h : Totals l r c z lost) :
    (SignsClash l r z ∧ (l.toInt + r.toInt + c.toNat = z.toInt + 2 ^ n ∨
      l.toInt + r.toInt + c.toNat = z.toInt - 2 ^ n)) ∨
    (¬ SignsClash l r z ∧ l.toInt + r.toInt + c.toNat = z.toInt) := by
  have heq := h.eq
  have hc := Bool.toNat_le c
  have hl := msb_bounds hn l
  have hr := msb_bounds hn r
  have hz := msb_bounds hn z
  have hpow : (2 : Int) ^ n = 2 * ((2 ^ (n - 1) : Nat) : Int) := by exact_mod_cast two_pow_eq hn
  rw [SignsClash, toInt_eq_msb, toInt_eq_msb, toInt_eq_msb, hpow]
  rw [two_pow_eq hn] at heq
  generalize 2 ^ (n - 1) = half at *
  generalize l.msb = a at *
  generalize r.msb = b at *
  generalize z.msb = d at *
  cases a <;> cases b <;> cases d <;> cases lost <;>
    simp only [Bool.toNat_false, Bool.toNat_true, Nat.cast_zero, Nat.cast_one,
      mul_zero, mul_one, ne_eq, not_true_eq_false, and_false, and_true, false_and,
      reduceCtorEq, not_false_eq_true, and_self, true_and, or_false, false_or] at heq hl hr hz ⊢ <;>
    omega

/-- A sum is out of range if the signs clash. -/
theorem outOfRange_sum_iff (hn : 0 < n) (h : Totals l r c z lost) :
    OutOfRange n (l.toInt + r.toInt + c.toNat) ↔ SignsClash l r z :=
  outOfRange_iff hn z (h.toInt_eq hn)

/-- A difference is out of range if the signs of the sum that makes up its
left operand clash. -/
theorem outOfRange_difference_iff (hn : 0 < n) (h : Totals l r c z lost) :
    OutOfRange n (z.toInt - r.toInt - c.toNat) ↔ SignsClash l r z := by
  refine outOfRange_iff hn l ?_
  rcases h.toInt_eq hn with ⟨hclash, hexact⟩ | ⟨hclash, hexact⟩
  · exact .inl ⟨hclash, by omega⟩
  · exact .inr ⟨hclash, by omega⟩

end Totals

/-- The sign bit of a combination of the operands of a sum and its result. -/
theorem msb_sumOverflow (hn : 0 < n) (l r z : BitVec n) :
    (~~~(l ^^^ r) &&& (l ^^^ z)).msb = true ↔ SignsClash l r z := by
  rw [SignsClash, BitVec.msb_and, BitVec.msb_not, BitVec.msb_xor, BitVec.msb_xor,
    decide_eq_true hn]
  cases l.msb <;> cases r.msb <;> cases z.msb <;> decide

/-- The sign bit of a combination of the operands of a difference and its
result. -/
theorem msb_differenceOverflow (l r z : BitVec n) :
    ((z ^^^ r) &&& (z ^^^ l)).msb = true ↔ SignsClash l r z := by
  rw [SignsClash, BitVec.msb_and, BitVec.msb_xor, BitVec.msb_xor]
  cases l.msb <;> cases r.msb <;> cases z.msb <;> decide

namespace Totals

variable {lost : Bool}

theorem overflow_sum (hn : 0 < n) (h : Totals l r c z lost) :
    decide (OutOfRange n (l.toInt + r.toInt + c.toNat)) = (~~~(l ^^^ r) &&& (l ^^^ z)).msb := by
  rw [Bool.eq_iff_iff, decide_eq_true_iff, h.outOfRange_sum_iff hn, msb_sumOverflow hn]

theorem overflow_difference (hn : 0 < n) (h : Totals l r c z lost) :
    decide (OutOfRange n (z.toInt - r.toInt - c.toNat)) = ((z ^^^ r) &&& (z ^^^ l)).msb := by
  rw [Bool.eq_iff_iff, decide_eq_true_iff, h.outOfRange_difference_iff hn, msb_differenceOverflow]

end Totals

/-! ## Steps by one -/

theorem signsClash_iff : SignsClash l r z ↔
    (2 ^ (n - 1) ≤ l.toNat ↔ 2 ^ (n - 1) ≤ r.toNat) ∧
      ¬ (2 ^ (n - 1) ≤ l.toNat ↔ 2 ^ (n - 1) ≤ z.toNat) := by
  rw [SignsClash, BitVec.msb_eq_decide, BitVec.msb_eq_decide, BitVec.msb_eq_decide,
    decide_eq_decide, ne_eq, decide_eq_decide]

/-- Only the step from the greatest signed word to the least one overflows. -/
theorem Totals.signsClash_one_iff {lost : Bool} (hn : 1 < n) (h : Totals l 1 false z lost) :
    (SignsClash l 1 z ↔ z.toNat = 2 ^ (n - 1)) ∧
      (SignsClash l 1 z ↔ l.toNat = 2 ^ (n - 1) - 1) := by
  have heq := h.eq
  have hl := l.isLt
  have hz := z.isLt
  have hhalf : 1 < 2 ^ (n - 1) := Nat.one_lt_two_pow (by omega)
  have hone : (1 : BitVec n).toNat = 1 := toNat_ofNat_toNat (by omega) true
  rw [hone, Bool.toNat_false, two_pow_eq (by omega)] at heq
  rw [two_pow_eq (by omega)] at hl hz
  rw [signsClash_iff, hone]
  generalize 2 ^ (n - 1) = half at *
  cases lost with
  | false =>
    rw [Bool.toNat_false] at heq
    omega
  | true =>
    rw [Bool.toNat_true] at heq
    omega

end SymLift
