import SymLift.Flags.Bits
import SymLift.Proofs.Carries
import SymLift.Proofs.Denotation

/-!
# The flags of an operation

`Flags` holds the flags as truth values, and `Flags.ofThunk` gives the flags
that an operation of the thunk sets.  They are defined by the numbers of the
operands: a carry is a sum that does not fit, an overflow a signed sum that
does not fit, and so on.

* `FlagBits.tells_parityFlag` to `FlagBits.tells_differenceOverflow`: the
  value of each single flag.
* `FlagBits.Denotes` says that terms of one bit have the flags as values, and
  `FlagBits.denotes_ofThunk` that the flags of the thunk do.
* `FlagBits.denotes_pack`: the word that holds all flags.
* `FlagBits.tells_condition`: the truth of a condition code.
-/

namespace SymLift

variable {n : Nat}

/-- The flags. -/
structure Flags where
  carry : Bool
  parity : Bool
  adjust : Bool
  zero : Bool
  sign : Bool
  overflow : Bool
  deriving DecidableEq

namespace Flags

/-- The low byte has an even number of set bits. -/
def evenParity (x : BitVec n) : Bool := (List.range 8).countP (x.getLsbD ·) % 2 == 0

/-- All flags, from those that an operation computes itself and its result. -/
def ofResult (result : BitVec n) (carry adjust overflow : Bool) : Flags where
  carry := carry
  parity := evenParity result
  adjust := adjust
  zero := result == 0
  sign := result.msb
  overflow := overflow

/-- The flags of a sum with an old carry. -/
def sum (l r : BitVec n) (old : Bool) : Flags :=
  ofResult (l + r + BitVec.ofNat n old.toNat)
    (decide (2 ^ n ≤ l.toNat + r.toNat + old.toNat))
    (decide (16 ≤ l.toNat % 16 + r.toNat % 16 + old.toNat))
    (decide (OutOfRange n (l.toInt + r.toInt + old.toNat)))

/-- The flags of a difference with an old borrow. -/
def difference (l r : BitVec n) (old : Bool) : Flags :=
  ofResult (l - r - BitVec.ofNat n old.toNat)
    (decide (l.toNat < r.toNat + old.toNat))
    (decide (l.toNat % 16 < r.toNat % 16 + old.toNat))
    (decide (OutOfRange n (l.toInt - r.toInt - old.toNat)))

/-- The flags that the thunk of an operation stands for.  With an old carry
the thunk holds the right operand combined with it.  A step up or down keeps
the old carry, and the thunk holds its result.  For a shift the thunk holds
the result and what one bit less would have given. -/
def ofThunk {word : Nat} (op : ThunkOp) (n : Nat) (dep1 dep2 ndep : BitVec word) : Flags :=
  let l := dep1.setWidth n
  let r := dep2.setWidth n
  let old := ndep.getLsbD 0
  match op with
  | .copy =>
    { carry := dep1.getLsbD 0
      parity := dep1.getLsbD 2
      adjust := dep1.getLsbD 4
      zero := dep1.getLsbD 6
      sign := dep1.getLsbD 7
      overflow := dep1.getLsbD 11 }
  | .add => sum l r false
  | .sub => difference l r false
  | .adc => sum l (r ^^^ BitVec.ofNat n old.toNat) old
  | .sbb => difference l (r ^^^ BitVec.ofNat n old.toNat) old
  | .logic => ofResult l false false false
  | .inc => { sum (l - 1) 1 false with carry := old }
  | .dec => { difference (l + 1) 1 false with carry := old }
  | .shl => ofResult l r.msb false (l.msb ^^ r.msb)
  | .shr => ofResult l (r.getLsbD 0) false (l.msb ^^ r.msb)

/-- The flags in one word, each in its place. -/
def pack (f : Flags) (word : Nat) : BitVec word :=
  BitVec.ofNat word (f.carry.toNat + 4 * f.parity.toNat + 16 * f.adjust.toNat + 64 * f.zero.toNat +
    128 * f.sign.toNat + 2048 * f.overflow.toNat)

/-- The truth of a condition code below sixteen.  An odd code is the negation
of the even code below it. -/
def condition (f : Flags) (code : Nat) : Bool :=
  let base :=
    match code / 2 with
    | 0 => f.overflow
    | 1 => f.carry
    | 2 => f.zero
    | 3 => f.carry || f.zero
    | 4 => f.sign
    | 5 => f.parity
    | 6 => f.sign ^^ f.overflow
    | _ => (f.sign ^^ f.overflow) || f.zero
  if code % 2 = 1 then !base else base

end Flags

/-- A term of one bit tells whether something is true. -/
abbrev Term.Tells (m : Model) (t : Term) (b : Bool) : Prop := t.Denotes m (BitVec.ofBool b)

namespace FlagBits

open Fold

variable {m : Model} {result left right t u : Term} {x y z : BitVec n} {b c : Bool}

/-! ## Single bits -/

theorem tells_complement (h : t.Tells m b) : (unary .complement t).Tells m (!b) := by
  have hnot := denotes_unary .complement h
  cases b <;> exact hnot

theorem tells_xor (ht : t.Tells m b) (hu : u.Tells m c) : (binary .xor t u).Tells m (b ^^ c) := by
  have h := denotes_binary .xor ht hu
  cases b <;> cases c <;> exact h

theorem tells_or (ht : t.Tells m b) (hu : u.Tells m c) : (binary .or t u).Tells m (b || c) := by
  have h := denotes_binary .or ht hu
  cases b <;> cases c <;> exact h

theorem tells_truthBit (h : t.Decides m b) : (truthBit t).Tells m b := by
  have hbits := denotes_boolToBits h (show 1 ≤ Word.maxBits by decide)
  cases b <;> exact hbits

theorem tells_clear : (lit 0 1).Tells m false := denotes_lit 0 (by decide)

theorem tells_bit (place : Nat) (lt : place < n) (h : t.Denotes m x) :
    (bit t place).Tells m (x.getLsbD place) :=
  denotes_bit place lt h

theorem tells_topBit (hn : 0 < n) (h : t.Denotes m x) : (topBit t).Tells m x.msb := by
  rw [topBit, h.width_eq, BitVec.msb_eq_getLsbD_last]
  exact tells_bit _ (by omega) h

theorem tells_zeroFlag (h : result.Denotes m z) : (zeroFlag result).Tells m (z == 0) := by
  rw [zeroFlag, h.width_eq]
  exact tells_truthBit (decides_compare .eq h (denotes_lit 0 h.width_le))

/-- An exclusive or of bits tells whether their number is odd. -/
theorem foldl_xor_eq (bit : Nat → Bool) (places : List Nat) (b : Bool) :
    places.foldl (fun odd place => odd ^^ bit place) b = (b ^^ (places.countP bit % 2 == 1)) := by
  induction places generalizing b with
  | nil => rw [List.foldl_nil, List.countP_nil]; cases b <;> rfl
  | cons place places ih =>
    rw [List.foldl_cons, ih, List.countP_cons]
    rcases Nat.mod_two_eq_zero_or_one (places.countP bit) with hmod | hmod <;>
      cases b <;> cases bit place <;> simp [Nat.add_mod, hmod]

theorem tells_foldl_xor (places : List Nat) (hplaces : ∀ place ∈ places, place < n)
    (h : result.Denotes m z) (ht : t.Tells m b) :
    (places.foldl (fun odd place => binary .xor odd (bit result place)) t).Tells m
      (places.foldl (fun odd place => odd ^^ z.getLsbD place) b) := by
  induction places generalizing t b with
  | nil => exact ht
  | cons place places ih =>
    obtain ⟨hplace, hrest⟩ := List.forall_mem_cons.1 hplaces
    exact ih hrest (tells_xor ht (tells_bit place hplace h))

theorem tells_parityFlag (hn : 8 ≤ n) (h : result.Denotes m z) :
    (parityFlag result).Tells m (Flags.evenParity z) := by
  have hplaces : ∀ place ∈ List.range' 1 7, place < n := by
    intro place hplace
    rw [List.mem_range'_1] at hplace
    omega
  have hodd := tells_foldl_xor _ hplaces h (tells_bit 0 (by omega) h)
  have heven : Flags.evenParity z =
      !((List.range' 1 7).foldl (fun odd place => odd ^^ z.getLsbD place) (z.getLsbD 0)) := by
    rw [foldl_xor_eq, Flags.evenParity, show List.range 8 = 0 :: List.range' 1 7 from rfl,
      List.countP_cons]
    rcases Nat.mod_two_eq_zero_or_one ((List.range' 1 7).countP (z.getLsbD ·)) with hmod | hmod <;>
      cases z.getLsbD 0 <;> simp [Nat.add_mod, hmod]
  rw [heven]
  exact tells_complement hodd

/-- The fifth bit tells of a half carry. -/
theorem tells_adjustFlag (hn : 5 ≤ n) (hz : result.Denotes m z) (hl : left.Denotes m x)
    (hr : right.Denotes m y) :
    (adjustFlag result left right).Tells m ((z ^^^ x ^^^ y).getLsbD 4) :=
  tells_bit 4 (by omega) (denotes_binary .xor (denotes_binary .xor hz hl) hr)

theorem tells_sumOverflow (hn : 0 < n) (hz : result.Denotes m z) (hl : left.Denotes m x)
    (hr : right.Denotes m y) :
    (sumOverflow result left right).Tells m (~~~(x ^^^ y) &&& (x ^^^ z)).msb :=
  tells_topBit hn (denotes_binary .and (denotes_unary .complement (denotes_binary .xor hl hr))
    (denotes_binary .xor hl hz))

theorem tells_differenceOverflow (hn : 0 < n) (hz : result.Denotes m z) (hl : left.Denotes m x)
    (hr : right.Denotes m y) :
    (differenceOverflow result left right).Tells m ((x ^^^ y) &&& (x ^^^ z)).msb :=
  tells_topBit hn (denotes_binary .and (denotes_binary .xor hl hr) (denotes_binary .xor hl hz))

/-! ## All flags -/

/-- The terms have the flags as values. -/
structure Denotes (m : Model) (f : FlagBits) (g : Flags) : Prop where
  carry : f.carry.Tells m g.carry
  parity : f.parity.Tells m g.parity
  adjust : f.adjust.Tells m g.adjust
  zero : f.zero.Tells m g.zero
  sign : f.sign.Tells m g.sign
  overflow : f.overflow.Tells m g.overflow

theorem denotes_ofOutcome {o : Outcome} {carry adjust overflow : Bool} (hn : 8 ≤ n)
    (hresult : o.result.Denotes m z) (hcarry : o.carry.Tells m carry)
    (hadjust : o.adjust.Tells m adjust) (hoverflow : o.overflow.Tells m overflow) :
    (ofOutcome o).Denotes m (Flags.ofResult z carry adjust overflow) where
  carry := hcarry
  parity := tells_parityFlag hn hresult
  adjust := hadjust
  zero := tells_zeroFlag hresult
  sign := tells_topBit (by omega) hresult
  overflow := hoverflow

/-- A sum whose carry is found by comparing the result with an operand. -/
theorem denotes_sum (hn : 8 ≤ n) (hl : left.Denotes m x) (hr : right.Denotes m y)
    (hz : result.Denotes m (x + y + BitVec.ofNat n c.toNat))
    (hcarry : t.Decides m (if c then (x + y + BitVec.ofNat n c.toNat).ule x
      else (x + y + BitVec.ofNat n c.toNat).ult x)) :
    (ofOutcome ⟨result, truthBit t, adjustFlag result left right,
      sumOverflow result left right⟩).Denotes m (Flags.sum x y c) := by
  have htotals := totals_add (by omega) x y c
  refine denotes_ofOutcome hn hz ?_ ?_ ?_
  · rw [htotals.lost_eq]
    exact tells_truthBit hcarry
  · rw [← htotals.half_eq (by omega)]
    exact tells_adjustFlag (by omega) hz hl hr
  · rw [htotals.overflow_sum (by omega)]
    exact tells_sumOverflow (by omega) hz hl hr

/-- A difference whose borrow is found by comparing the operands. -/
theorem denotes_difference (hn : 8 ≤ n) (hl : left.Denotes m x) (hr : right.Denotes m y)
    (hz : result.Denotes m (x - y - BitVec.ofNat n c.toNat))
    (hcarry : t.Decides m (if c then x.ule y else x.ult y)) :
    (ofOutcome ⟨result, truthBit t, adjustFlag result left right,
      differenceOverflow result left right⟩).Denotes m (Flags.difference x y c) := by
  have htotals := totals_sub (by omega) x y c
  refine denotes_ofOutcome hn hz ?_ ?_ ?_
  · rw [htotals.comm.lost_eq]
    exact tells_truthBit hcarry
  · rw [← htotals.half_borrow_eq (by omega)]
    exact tells_adjustFlag (by omega) hz hl hr
  · rw [htotals.overflow_difference (by omega)]
    exact tells_differenceOverflow (by omega) hz hl hr

theorem denotes_addOutcome (hn : 8 ≤ n) (hl : left.Denotes m x) (hr : right.Denotes m y) :
    (ofOutcome (addOutcome left right)).Denotes m (Flags.sum x y false) := by
  have hz : (binary .add left right).Denotes m (x + y + BitVec.ofNat n false.toNat) := by
    rw [Bool.toNat_false, BitVec.add_zero]
    exact denotes_binary .add hl hr
  exact denotes_sum hn hl hr hz (decides_compare .ult hz hl)

theorem denotes_subOutcome (hn : 8 ≤ n) (hl : left.Denotes m x) (hr : right.Denotes m y) :
    (ofOutcome (subOutcome left right)).Denotes m (Flags.difference x y false) := by
  have hz : (binary .sub left right).Denotes m (x - y - BitVec.ofNat n false.toNat) := by
    rw [Bool.toNat_false, BitVec.sub_zero]
    exact denotes_binary .sub hl hr
  exact denotes_difference hn hl hr hz (decides_compare .ult hl hr)

/-- The old carry as a word, and whether it is set. -/
theorem denotes_oldCarry (hn : 0 < n) (le : n ≤ Word.maxBits) (h : t.Tells m c) :
    (zeroExt (n - 1) t).Denotes m (BitVec.ofNat n c.toNat) ∧
      (compare .eq t (lit 1 1)).Decides m c := by
  constructor
  · refine (denotes_zeroExt h (by omega)).congr (by omega) ?_
    rw [BitVec.toNat_setWidth_of_le (by omega), BitVec.toNat_ofBool, toNat_ofNat_toNat hn]
  · have heq := decides_compare .eq h (denotes_lit 1 (show 1 ≤ Word.maxBits by decide))
    cases c <;> exact heq

/-- A choice between two comparisons. -/
theorem decides_choice {cond : Term} (hcond : cond.Decides m c) {b' : Bool} (ht : t.Decides m b)
    (hu : u.Decides m b') : (ite cond t u).Decides m (if c then b else b') := by
  rw [Term.Decides, eval_ite hcond]
  cases c with
  | true => exact ht
  | false => exact hu

theorem denotes_adcOutcome (hn : 8 ≤ n) (hl : left.Denotes m x) (hr : right.Denotes m y)
    (hold : t.Tells m c) :
    (ofOutcome (adcOutcome n left right t)).Denotes m
      (Flags.sum x (y ^^^ BitVec.ofNat n c.toNat) c) := by
  obtain ⟨hwide, hset⟩ := denotes_oldCarry (by omega) hl.width_le hold
  have hright := denotes_binary .xor hr hwide
  have hz := denotes_binary .add (denotes_binary .add hl hright) hwide
  exact denotes_sum hn hl hright hz
    (decides_choice hset (decides_compare .ule hz hl) (decides_compare .ult hz hl))

theorem denotes_sbbOutcome (hn : 8 ≤ n) (hl : left.Denotes m x) (hr : right.Denotes m y)
    (hold : t.Tells m c) :
    (ofOutcome (sbbOutcome n left right t)).Denotes m
      (Flags.difference x (y ^^^ BitVec.ofNat n c.toNat) c) := by
  obtain ⟨hwide, hset⟩ := denotes_oldCarry (by omega) hl.width_le hold
  have hright := denotes_binary .xor hr hwide
  have hz := denotes_binary .sub (denotes_binary .sub hl hright) hwide
  exact denotes_difference hn hl hright hz
    (decides_choice hset (decides_compare .ule hl hright) (decides_compare .ult hl hright))

/-- The flags of a step up, from its result. -/
theorem stepUp_eq (hn : 8 ≤ n) (hw : n ≤ Word.maxBits) (x : BitVec n) (c : Bool) :
    ({ Flags.sum (x - 1) 1 false with carry := c } : Flags) =
      Flags.ofResult x c ((x ^^^ (x - 1) ^^^ 1).getLsbD 4)
        (x == BitVec.ofNat n (Word.size (n - 1))) := by
  have hz : x - 1 + 1 + BitVec.ofNat n false.toNat = x := by
    rw [Bool.toNat_false, BitVec.add_zero, BitVec.sub_add_cancel]
  have htotals := totals_add (by omega) (x - 1) 1 false
  rw [hz] at htotals
  have hover : (x == BitVec.ofNat n (Word.size (n - 1))) =
      decide (OutOfRange n ((x - 1).toInt + (1 : BitVec n).toInt + false.toNat)) := by
    have hlt : 2 ^ (n - 1) < 2 ^ n := Nat.pow_lt_pow_right (by decide) (by omega)
    rw [Bool.eq_iff_iff, decide_eq_true_iff, htotals.outOfRange_sum_iff (by omega),
      (htotals.signsClash_one_iff (by omega)).1, beq_iff_eq, Word.size_eq (by omega),
      ← BitVec.toNat_inj, BitVec.toNat_ofNat, Nat.mod_eq_of_lt hlt]
  rw [htotals.half_eq (by omega), hover, Flags.sum, hz]
  rfl

/-- The flags of a step down, from its result. -/
theorem stepDown_eq (hn : 8 ≤ n) (hw : n ≤ Word.maxBits) (x : BitVec n) (c : Bool) :
    ({ Flags.difference (x + 1) 1 false with carry := c } : Flags) =
      Flags.ofResult x c ((x ^^^ (x + 1) ^^^ 1).getLsbD 4)
        (x == BitVec.ofNat n (Word.allOnes (n - 1))) := by
  have hz : x + 1 - 1 - BitVec.ofNat n false.toNat = x := by
    rw [Bool.toNat_false, BitVec.sub_zero, BitVec.add_sub_cancel]
  have htotals := totals_sub (by omega) (x + 1) 1 false
  rw [hz] at htotals
  have hover : (x == BitVec.ofNat n (Word.allOnes (n - 1))) =
      decide (OutOfRange n ((x + 1).toInt - (1 : BitVec n).toInt - false.toNat)) := by
    have hlt : 2 ^ (n - 1) < 2 ^ n := Nat.pow_lt_pow_right (by decide) (by omega)
    rw [Bool.eq_iff_iff, decide_eq_true_iff, htotals.outOfRange_difference_iff (by omega),
      (htotals.signsClash_one_iff (by omega)).2, beq_iff_eq, Word.allOnes, Word.size_eq (by omega),
      ← BitVec.toNat_inj, BitVec.toNat_ofNat, Nat.mod_eq_of_lt ((Nat.sub_le _ _).trans_lt hlt)]
  rw [htotals.half_borrow_eq (by omega), hover, Flags.difference, hz]
  rfl

/-- A step up or down by one from `before`. -/
theorem denotes_stepOutcome {before : Term} (overflowAt : Nat) (hn : 8 ≤ n)
    (hresult : result.Denotes m x) (hbefore : before.Denotes m y) (hold : t.Tells m c) :
    (ofOutcome (stepOutcome n result before t overflowAt)).Denotes m
      (Flags.ofResult x c ((x ^^^ y ^^^ 1).getLsbD 4) (x == BitVec.ofNat n overflowAt)) := by
  have hone := denotes_lit (m := m) 1 hresult.width_le
  have hat := denotes_lit (m := m) overflowAt hresult.width_le
  exact denotes_ofOutcome hn hresult hold (tells_adjustFlag (by omega) hresult hbefore hone)
    (tells_truthBit (decides_compare .eq hresult hat))

theorem denotes_shiftOutcome {lost : Term} (hn : 8 ≤ n) (hresult : result.Denotes m x)
    (hprevious : left.Denotes m y) (hlost : lost.Tells m c) :
    (ofOutcome (shiftOutcome result left lost)).Denotes m
      (Flags.ofResult x c false (x.msb ^^ y.msb)) := by
  have hclash := tells_topBit (by omega) (denotes_binary .xor hresult hprevious)
  rw [BinaryOp.onBits, BitVec.msb_xor] at hclash
  exact denotes_ofOutcome hn hresult hlost tells_clear hclash

/-- The low bits of an operand of the thunk. -/
theorem denotes_operand {word : Nat} {d : BitVec word} (hn : 0 < n) (le : n ≤ word)
    (h : t.Denotes m d) : (extract (n - 1) 0 t).Denotes m (d.setWidth n) := by
  have hwidth : n - 1 - 0 + 1 = n := by omega
  refine (denotes_extract (Nat.zero_le _) (by omega) h).congr hwidth ?_
  rw [BitVec.extractLsb'_toNat, hwidth, Nat.shiftRight_zero, BitVec.toNat_setWidth]

/-- The flags that the thunk of an operation stands for. -/
theorem denotes_ofThunk {word : Nat} (op : ThunkOp) {dep1 dep2 ndep : Term}
    {d1 d2 nd : BitVec word} (hn : 8 ≤ n) (le : n ≤ word) (hword : 12 ≤ word)
    (h1 : dep1.Denotes m d1) (h2 : dep2.Denotes m d2) (hnd : ndep.Denotes m nd) :
    (ofThunk op n dep1 dep2 ndep).Denotes m (Flags.ofThunk op n d1 d2 nd) := by
  have hl := denotes_operand (by omega) le h1
  have hr := denotes_operand (by omega) le h2
  have hold := tells_bit carryPlace (by rw [carryPlace]; omega) hnd
  have hone := denotes_lit (m := m) 1 hl.width_le
  cases op with
  | copy =>
    exact ⟨tells_bit 0 (by omega) h1, tells_bit 2 (by omega) h1, tells_bit 4 (by omega) h1,
      tells_bit 6 (by omega) h1, tells_bit 7 (by omega) h1, tells_bit 11 (by omega) h1⟩
  | add => exact denotes_addOutcome hn hl hr
  | sub => exact denotes_subOutcome hn hl hr
  | adc => exact denotes_adcOutcome hn hl hr hold
  | sbb => exact denotes_sbbOutcome hn hl hr hold
  | logic => exact denotes_ofOutcome hn hl tells_clear tells_clear tells_clear
  | inc =>
    have hflags := stepUp_eq hn hl.width_le (d1.setWidth n) (nd.getLsbD 0)
    rw [show Flags.ofThunk .inc n d1 d2 nd = _ from hflags]
    exact denotes_stepOutcome _ hn hl (denotes_binary .sub hl hone) hold
  | dec =>
    have hflags := stepDown_eq hn hl.width_le (d1.setWidth n) (nd.getLsbD 0)
    rw [show Flags.ofThunk .dec n d1 d2 nd = _ from hflags]
    exact denotes_stepOutcome _ hn hl (denotes_binary .add hl hone) hold
  | shl => exact denotes_shiftOutcome hn hl hr (tells_topBit (by omega) hr)
  | shr => exact denotes_shiftOutcome hn hl hr (tells_bit 0 (by omega) hr)

/-! ## What is read off the flags -/

variable {f : FlagBits} {g : Flags}

/-- A flag in its place in a word. -/
theorem denotes_placed {word : Nat} (place : Nat) (hword : place < word)
    (le : word ≤ Word.maxBits) (h : t.Tells m b) :
    (placed word t place).Denotes m (BitVec.ofNat word (2 ^ place * b.toNat)) := by
  have hwide : (zeroExt (word - 1) t).Denotes m (BitVec.ofNat word b.toNat) :=
    (denotes_oldCarry (by omega) le h).1
  have hplace : place < 2 ^ word := hword.trans Nat.lt_two_pow_self
  refine (denotes_shift .shl hwide (denotes_lit place le) (by omega)).congr rfl ?_
  rw [BinaryOp.onBits, BitVec.setWidth_eq, BitVec.shiftLeft_eq', BitVec.toNat_shiftLeft,
    toNat_ofNat_toNat (by omega), BitVec.toNat_ofNat, BitVec.toNat_ofNat, Nat.mod_eq_of_lt hplace,
    Nat.shiftLeft_eq, Nat.mul_comm]

/-- The word that holds all flags. -/
theorem denotes_pack {word : Nat} (hword : 12 ≤ word) (le : word ≤ Word.maxBits)
    (h : f.Denotes m g) : (f.pack word).Denotes m (g.pack word) := by
  have hcarry := denotes_placed carryPlace (by rw [carryPlace]; omega) le h.carry
  have hparity := denotes_placed parityPlace (by rw [parityPlace]; omega) le h.parity
  have hadjust := denotes_placed adjustPlace (by rw [adjustPlace]; omega) le h.adjust
  have hzero := denotes_placed zeroPlace (by rw [zeroPlace]; omega) le h.zero
  have hsign := denotes_placed signPlace (by rw [signPlace]; omega) le h.sign
  have hoverflow := denotes_placed overflowPlace (by rw [overflowPlace]; omega) le h.overflow
  have hall := denotes_binary .or (denotes_binary .or (denotes_binary .or (denotes_binary .or
    (denotes_binary .or hcarry hparity) hadjust) hzero) hsign) hoverflow
  have hplaces : ∀ c p a z s o : Bool,
      2 ^ carryPlace * c.toNat ||| 2 ^ parityPlace * p.toNat ||| 2 ^ adjustPlace * a.toNat |||
        2 ^ zeroPlace * z.toNat ||| 2 ^ signPlace * s.toNat ||| 2 ^ overflowPlace * o.toNat =
      c.toNat + 4 * p.toNat + 16 * a.toNat + 64 * z.toNat + 128 * s.toNat + 2048 * o.toNat := by
    decide
  rw [Flags.pack, ← hplaces]
  simp only [BitVec.ofNat_or]
  exact hall

/-- The truth of a condition code below sixteen. -/
theorem tells_conditionBit (h : f.Denotes m g) {code : Nat} (hcode : code < 16) :
    (f.conditionBit code).Tells m (g.condition code) :=
  match code, hcode with
  | 0, _ => h.overflow
  | 1, _ => tells_complement h.overflow
  | 2, _ => h.carry
  | 3, _ => tells_complement h.carry
  | 4, _ => h.zero
  | 5, _ => tells_complement h.zero
  | 6, _ => tells_or h.carry h.zero
  | 7, _ => tells_complement (tells_or h.carry h.zero)
  | 8, _ => h.sign
  | 9, _ => tells_complement h.sign
  | 10, _ => h.parity
  | 11, _ => tells_complement h.parity
  | 12, _ => tells_xor h.sign h.overflow
  | 13, _ => tells_complement (tells_xor h.sign h.overflow)
  | 14, _ => tells_or (tells_xor h.sign h.overflow) h.zero
  | 15, _ => tells_complement (tells_or (tells_xor h.sign h.overflow) h.zero)
  | code + 16, hcode => absurd hcode (by omega)

end FlagBits

/-! ## Selecting by a number -/

namespace Fold

variable {m : Model} {w v : Nat} {t last : Term} {k : BitVec w} {d : BitVec v} {choices : List Nat}
  {arm : Nat → Term} {value : Nat → BitVec v}

/-- A chain of choices takes the arm of the number that a term has, and the
last one if there is no such arm. -/
theorem denotes_select (ht : t.Denotes m k) (hchoices : ∀ c ∈ choices, c < 2 ^ w)
    (harms : ∀ c ∈ choices, (arm c).Denotes m (value c)) (hlast : last.Denotes m d) :
    (choices.foldr (fun c rest => ite (compare .eq t (lit c t.width)) (arm c) rest) last).Denotes m
      (if k.toNat ∈ choices then value k.toNat else d) := by
  induction choices with
  | nil => exact hlast
  | cons c choices ih =>
    obtain ⟨hc, hchoices⟩ := List.forall_mem_cons.1 hchoices
    obtain ⟨harm, harms⟩ := List.forall_mem_cons.1 harms
    have hrest := ih hchoices harms
    have heq := decides_eq_lit ht hc
    rw [List.foldr_cons]
    refine denotes_ite heq (harm.sort_eq.trans hrest.sort_eq.symm) ?_
    by_cases hk : k.toNat = c
    · rw [decide_eq_true hk, if_pos rfl, if_pos (hk ▸ List.mem_cons_self), hk]
      exact harm
    · rw [decide_eq_false hk, if_neg Bool.false_ne_true]
      simpa only [List.mem_cons, hk, false_or] using hrest

end Fold

namespace Term

variable {m : Model} {w : Nat} {t : Term} {x : BitVec w}

/-- A term of at most 64 bits is a constant if it is a constant address. -/
theorem Denotes.addressValue?_eq (h : t.Denotes m x) (le : w ≤ 64) :
    t.addressValue? = if t.isConstant then some x.toNat else none := by
  cases t with
  | const value width =>
    have hvalue : value = x.toNat := h.constValue?_eq rfl
    have hlt : x.toNat < UInt64.size := x.isLt.trans_le (Nat.pow_le_pow_right (by decide) le)
    rw [addressValue?, hvalue, if_pos hlt]
    rfl
  | bool value => cases h.sort_eq
  | _ => rfl

end Term

namespace FlagBits

variable {m : Model} {f : FlagBits} {g : Flags}

/-- The code that a condition goes by: a constant counts by its low four
bits, and a term that is out of range by the last code. -/
def codeOf {w : Nat} (code : Term) (k : BitVec w) : Nat :=
  if code.isConstant then k.toNat % 16 else min k.toNat 15

/-- The truth of a condition. -/
theorem tells_condition {w : Nat} {code : Term} {k : BitVec w} (h : f.Denotes m g)
    (hcode : code.Denotes m k) (hw : 4 ≤ w) (le : w ≤ 64) :
    (f.condition code).Tells m (g.condition (codeOf code k)) := by
  rw [condition, hcode.addressValue?_eq le, codeOf]
  by_cases hconst : code.isConstant = true
  · rw [if_pos hconst, if_pos hconst]
    exact tells_conditionBit h (Nat.mod_lt _ (by decide))
  · rw [if_neg hconst, if_neg hconst]
    have hbits : ∀ c ∈ List.range 15, (f.conditionBit c).Tells m (g.condition c) :=
      fun c hc => tells_conditionBit h ((List.mem_range.1 hc).trans (by decide))
    have hrange : ∀ c ∈ List.range 15, c < 2 ^ w := by
      intro c hc
      have hpow : 2 ^ 4 ≤ 2 ^ w := Nat.pow_le_pow_right (by decide) hw
      exact ((List.mem_range.1 hc).trans (by decide)).trans_le hpow
    refine (Fold.denotes_select hcode hrange hbits
      (tells_conditionBit h (by decide : 15 < 16))).congr rfl ?_
    by_cases hk : k.toNat < 15
    · rw [if_pos (List.mem_range.2 hk), Nat.min_eq_left (by omega)]
    · rw [if_neg (fun hmem => hk (List.mem_range.1 hmem)), Nat.min_eq_right (by omega)]

end FlagBits

end SymLift
