import SymLift.Proofs.Instructions

/-!
# Conditions after a comparison

A comparison is a subtraction whose result is not kept.  A condition code asks
about its flags, and `Comparison.Holds` says what it finds out about the
operands.

* `Comparison.toInt_lt_iff`: the signed order is found in the sign of the
  difference, unless the difference is out of range.
* `Comparison.condition_difference`: an even code asks for its comparison.
* `Helper.call_condition_of_decoded`: what a call with a known operation builds.
* `Helper.condition_after_comparison`: the call on constants, and on terms under
  every model.
-/

namespace SymLift

variable {n : Nat}

/-- What can be asked about two words after they were compared. -/
inductive Comparison where
  /-- The signed difference is out of range. -/
  | overflow
  /-- The left word is less, both unsigned. -/
  | below
  | equal
  | belowOrEqual
  /-- The difference has its sign set. -/
  | negative
  /-- The low byte of the difference has an even number of set bits. -/
  | evenParity
  /-- The left word is less, both signed. -/
  | less
  | lessOrEqual

namespace Comparison

/-- The condition code of a comparison.  The next code negates it. -/
def code : Comparison → Nat
  | overflow => 0
  | below => 2
  | equal => 4
  | belowOrEqual => 6
  | negative => 8
  | evenParity => 10
  | less => 12
  | lessOrEqual => 14

/-- A comparison holds of two words. -/
def Holds (l r : BitVec n) : Comparison → Prop
  | overflow => OutOfRange n (l.toInt - r.toInt)
  | below => l.toNat < r.toNat
  | equal => l = r
  | belowOrEqual => l.toNat ≤ r.toNat
  | negative => (l - r).toInt < 0
  | evenParity => Flags.evenParity (l - r) = true
  | less => l.toInt < r.toInt
  | lessOrEqual => l.toInt ≤ r.toInt

instance (l r : BitVec n) : (c : Comparison) → Decidable (c.Holds l r)
  | overflow => inferInstanceAs (Decidable (OutOfRange n _))
  | below => inferInstanceAs (Decidable (_ < _))
  | equal => inferInstanceAs (Decidable (_ = _))
  | belowOrEqual => inferInstanceAs (Decidable (_ ≤ _))
  | negative => inferInstanceAs (Decidable (_ < _))
  | evenParity => inferInstanceAs (Decidable (_ = _))
  | less => inferInstanceAs (Decidable (_ < _))
  | lessOrEqual => inferInstanceAs (Decidable (_ ≤ _))

/-! ## Flags of a difference -/

/-- A word is less than another if the sign of their difference is wrong or
set, but not both. -/
theorem toInt_lt_iff (hn : 0 < n) (l r : BitVec n) :
    l.toInt < r.toInt ↔ ((l - r).msb ^^ decide (OutOfRange n (l.toInt - r.toInt))) = true := by
  have htotals := totals_sub hn l r false
  rw [Bool.toNat_false, BitVec.sub_zero] at htotals
  have hrange := htotals.outOfRange_difference_iff hn
  have hexact := htotals.toInt_eq hn
  rw [Bool.toNat_false, Nat.cast_zero, sub_zero] at hrange
  rw [Bool.toNat_false, Nat.cast_zero, add_zero] at hexact
  have hl := l.le_two_mul_toInt
  have hr := r.two_mul_toInt_lt
  have hl' := l.two_mul_toInt_lt
  have hr' := r.le_two_mul_toInt
  have hz := (l - r).le_two_mul_toInt
  have hz' := (l - r).two_mul_toInt_lt
  rw [BitVec.msb_eq_toInt]
  rcases hexact with ⟨hclash, hexact⟩ | ⟨hclash, hexact⟩
  · rw [decide_eq_true (hrange.2 hclash), Bool.xor_true, Bool.not_eq_true', decide_eq_false_iff_not]
    omega
  · rw [decide_eq_false (mt hrange.1 hclash), Bool.xor_false, decide_eq_true_iff]
    omega

theorem difference_false (l r : BitVec n) :
    Flags.difference l r false = Flags.ofResult (l - r) (decide (l.toNat < r.toNat))
      (decide (l.toNat % 16 < r.toNat % 16)) (decide (OutOfRange n (l.toInt - r.toInt))) := by
  rw [Flags.difference, Bool.toNat_false, BitVec.sub_zero, Nat.add_zero, Nat.add_zero,
    Nat.cast_zero, sub_zero]

/-- An even code asks for its comparison. -/
theorem condition_difference (hn : 0 < n) (c : Comparison) (l r : BitVec n) :
    (Flags.difference l r false).condition c.code = decide (c.Holds l r) := by
  have hequal : (l - r == 0) = decide (l = r) := by
    rw [Bool.eq_iff_iff, beq_iff_eq, decide_eq_true_iff]
    exact sub_eq_zero
  have hless : ((l - r).msb ^^ decide (OutOfRange n (l.toInt - r.toInt))) =
      decide (l.toInt < r.toInt) := by
    rw [Bool.eq_iff_iff, decide_eq_true_iff]
    exact (toInt_lt_iff hn l r).symm
  rw [difference_false]
  cases c with
  | overflow | below => rfl
  | equal => exact hequal
  | belowOrEqual =>
    show (decide (l.toNat < r.toNat) || (l - r == 0)) = decide (l.toNat ≤ r.toNat)
    rw [hequal, ← Bool.decide_or, decide_eq_decide, Nat.le_iff_lt_or_eq, BitVec.toNat_inj]
  | negative => exact BitVec.msb_eq_toInt
  | evenParity => exact Bool.decide_eq_true.symm
  | less => exact hless
  | lessOrEqual =>
    show (((l - r).msb ^^ decide (OutOfRange n (l.toInt - r.toInt))) || (l - r == 0)) =
      decide (l.toInt ≤ r.toInt)
    rw [hless, hequal, ← Bool.decide_or, decide_eq_decide, Int.le_iff_lt_or_eq, BitVec.toInt_inj]

/-- An odd code asks for the opposite of the even code below it. -/
theorem condition_negated (f : Flags) (c : Comparison) (negated : Bool) :
    f.condition (c.code + negated.toNat) = (f.condition c.code ^^ negated) := by
  cases negated with
  | false => exact (Bool.xor_false _).symm
  | true =>
    rw [Bool.xor_true]
    cases c <;> rfl

end Comparison

/-! ## Calls after a comparison -/

namespace Helper

open Fold Guest

variable {g : Guest} {m : Model} {op : ThunkOp} {number : Nat} {code dep1 dep2 ndep : Term}

theorem addressValue?_of_decoded (hdecode : g.decodeThunk? number = some (op, n)) :
    (Term.const number g.wordBits).addressValue? = some number := by
  have hpow : 2 ^ g.wordBits ≤ UInt64.size :=
    Nat.pow_le_pow_right (by decide) (wordBits_bounds g).2
  exact Term.addressValue?_eq_some_iff.2 ⟨rfl, (lt_two_pow_of_decoded hdecode).trans_le hpow⟩

theorem map_resize_eq {args : List Term} (h : ∀ t ∈ args, t.width = g.wordBits) :
    args.map (resize g.wordBits) = args := by
  have hself : ∀ t ∈ args, resize g.wordBits t = t := fun t ht => if_pos (h t ht)
  rw [List.map_congr_left hself, List.map_id']

/-- The call of a condition on words whose operation is known. -/
theorem call_condition_of_decoded (hdecode : g.decodeThunk? number = some (op, n))
    (hcode : code.width = g.wordBits) (hdeps : ∀ t ∈ [dep1, dep2, ndep], t.width = g.wordBits) :
    (Helper.mk g .condition).call [code, .const number g.wordBits, dep1, dep2, ndep] =
      .ok (zeroExt (g.wordBits - 1) ((FlagBits.ofThunk op n dep1 dep2 ndep).condition code),
        codeConstraints code) := by
  have hwords : ∀ t ∈ [code, .const number g.wordBits, dep1, dep2, ndep], t.width = g.wordBits :=
    List.forall_mem_cons.2 ⟨hcode, List.forall_mem_cons.2 ⟨rfl, hdeps⟩⟩
  rw [call_eq, map_resize_eq hwords]
  simp only [callWords, overThunkOp, addressValue?_of_decoded hdecode, hdecode]
  rfl

/-- A condition after a comparison, from the flags of a difference. -/
theorem condition_ofThunk_sub {word code : Nat} (hn : 0 < n) {c : Comparison} {negated : Bool}
    (hcode : code % 16 = c.code + negated.toNat) (l r nd : BitVec word) :
    (Flags.ofThunk .sub n l r nd).condition (code % 16) =
      (decide (c.Holds (l.setWidth n) (r.setWidth n)) ^^ negated) := by
  rw [hcode, Comparison.condition_negated]
  exact congrArg (· ^^ negated) (Comparison.condition_difference hn c _ _)

/-- The value of a condition after a comparison, under a model of its
operands. -/
theorem denotes_condition_sub {code : Nat} {c : Comparison} {negated : Bool} (hn : 8 ≤ n)
    (le : n ≤ g.wordBits) (hword : code < 2 ^ g.wordBits)
    (hcode : code % 16 = c.code + negated.toNat) {l r nd : BitVec g.wordBits}
    (h1 : dep1.Denotes m l) (h2 : dep2.Denotes m r) (hnd : ndep.Denotes m nd) :
    (zeroExt (g.wordBits - 1) ((FlagBits.ofThunk .sub n dep1 dep2 ndep).condition
        (.const code g.wordBits))).Denotes m
      (BitVec.ofNat g.wordBits
        (decide (c.Holds (l.setWidth n) (r.setWidth n)) ^^ negated).toNat) := by
  obtain ⟨hlow, hhigh⟩ := wordBits_bounds g
  have hconst : (Term.const code g.wordBits).Denotes m (BitVec.ofNat g.wordBits code) :=
    ⟨rfl, g.wordBits_le, by rw [BitVec.toNat_ofNat, Nat.mod_eq_of_lt hword]; rfl⟩
  have hflags := FlagBits.denotes_ofThunk .sub hn le hlow h1 h2 hnd
  have htells := FlagBits.tells_condition hflags hconst (by omega) hhigh
  rw [FlagBits.codeOf, if_pos (show (Term.const code g.wordBits).isConstant = true from rfl),
    BitVec.toNat_ofNat, Nat.mod_eq_of_lt hword, condition_ofThunk_sub (by omega) hcode] at htells
  exact denotes_truth (h := Helper.mk g .condition) htells

/-- After a comparison of two words that are constants or evaluate to ones, a
condition is one if the comparison of its code holds of their low bits, and
zero otherwise.  A code counts by its low four bits, and an odd code asks for
the opposite of the even one below it. -/
theorem condition_after_comparison {g : Guest} (hn : n ∈ g.dataWidths) (c : Comparison)
    (negated : Bool) {code : Nat} (hword : code < 2 ^ g.wordBits)
    (hcode : code % 16 = c.code + negated.toNat) :
    (∀ l r ndep : BitVec g.wordBits,
      (Helper.mk g .condition).call [.const code g.wordBits,
          .const (g.thunkNumber .sub n) g.wordBits, .const l.toNat g.wordBits,
          .const r.toNat g.wordBits, .const ndep.toNat g.wordBits] =
        .ok (.const (decide (c.Holds (l.setWidth n) (r.setWidth n)) ^^ negated).toNat g.wordBits,
          [])) ∧
    ∀ left right ndep : Term, (∀ t ∈ [left, right, ndep], t.HasSort (.bitVec g.wordBits)) →
      ∃ value, (Helper.mk g .condition).call [.const code g.wordBits,
          .const (g.thunkNumber .sub n) g.wordBits, left, right, ndep] = .ok (value, []) ∧
        ∀ m : Model, (∀ t ∈ [left, right, ndep], ∀ p ∈ t.occurrences, ∃ x, m p.1 = some x) →
          ∃ l r : BitVec g.wordBits, left.eval m = .ok (.word l.toNat g.wordBits) ∧
            right.eval m = .ok (.word r.toNat g.wordBits) ∧
            value.eval m = .ok (.word
              (decide (c.Holds (l.setWidth n) (r.setWidth n)) ^^ negated).toNat g.wordBits) := by
  have hdecode : g.decodeThunk? (g.thunkNumber .sub n) = some (.sub, n) :=
    decodeThunk?_thunkNumber (by decide) hn
  obtain ⟨hlow, hhigh⟩ := dataWidth_bounds hdecode
  constructor
  · intro l r ndep
    have hcompute : (Helper.mk g .condition).computeWords [BitVec.ofNat g.wordBits code,
        BitVec.ofNat g.wordBits (g.thunkNumber .sub n), l, r, ndep] = some (BitVec.ofNat _
          (decide (c.Holds (l.setWidth n) (r.setWidth n)) ^^ negated).toNat) := by
      simp only [computeWords, thunkFlags?_of_decoded hdecode, Option.map_some, BitVec.toNat_ofNat,
        Nat.mod_eq_of_lt hword, condition_ofThunk_sub (by omega : 0 < n) hcode]
    have hcall := call_map_const hcompute
    rw [toNat_ofNat_toNat (wordBits_pos _)] at hcall
    simp only [List.map_cons, List.map_nil, toNat_ofNat_of_decoded hdecode, BitVec.toNat_ofNat,
      Nat.mod_eq_of_lt hword] at hcall
    exact hcall
  · intro left right ndep hsorts
    have hwidths : ∀ t ∈ [left, right, ndep], t.width = g.wordBits :=
      fun t ht => (hsorts t ht).width_eq
    refine ⟨_, call_condition_of_decoded hdecode rfl hwidths, fun m hm => ?_⟩
    simp only [List.forall_mem_cons] at hsorts hm
    obtain ⟨hleft, hright, hndep, -⟩ := hsorts
    obtain ⟨hmleft, hmright, hmndep, -⟩ := hm
    obtain ⟨l, hl⟩ := hleft.hasValue hmleft
    obtain ⟨r, hr⟩ := hright.hasValue hmright
    obtain ⟨nd, hnd⟩ := hndep.hasValue hmndep
    have hvalue := denotes_condition_sub hlow hhigh hword hcode hl hr hnd
    refine ⟨l, r, hl.eval_eq, hr.eval_eq, ?_⟩
    rw [hvalue.eval_eq, toNat_ofNat_toNat g.wordBits_pos]

/-- The least signed byte is less than one, although their difference is
positive. -/
theorem condition_after_comparison_less :
    (Helper.mk .x86 .condition).call [.const 28 32, .const 4 32, .const 0x12345680 32, .const 1 32,
        .const 0 32] = .ok (.const 1 32, []) ∧
      ∃ value, (Helper.mk .x86 .condition).call [.const 28 32, .const 4 32, .var "left" 32,
          .const 1 32, .const 0 32] = .ok (value, []) ∧
        value.eval (fun _ => some 0x12345680) = .ok (.word 1 32) := by
  obtain ⟨hconstants, hterms⟩ := condition_after_comparison (g := .x86) (n := 8) (by decide) .less
    false (by decide : 28 < 2 ^ 32) (by decide)
  have hsorts : ∀ t ∈ [Term.var "left" 32, .const 1 32, .const 0 32], t.HasSort (.bitVec 32) := by
    simp only [List.forall_mem_cons]
    exact ⟨.var _ (by decide) (by decide), .const (by decide) (by decide) (by decide),
      .const (by decide) (by decide) (by decide), List.forall_mem_nil _⟩
  obtain ⟨value, hcall, hvalue⟩ := hterms _ _ _ hsorts
  refine ⟨hconstants 0x12345680 1 0, value, hcall, ?_⟩
  obtain ⟨l, r, hl, hr, htruth⟩ := hvalue (fun _ => some 0x12345680) fun _ _ _ _ => ⟨_, rfl⟩
  have hleft : l = 0x12345680 := BitVec.eq_of_toNat_eq (Value.word.inj (Except.ok.inj hl)).1.symm
  have hright : r = 1 := BitVec.eq_of_toNat_eq (Value.word.inj (Except.ok.inj hr)).1.symm
  rw [htruth, hleft, hright]
  decide

end Helper

end SymLift
