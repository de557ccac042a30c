import SymLift.Lift
import SymLift.Proofs.OperatorSorts
import SymLift.Proofs.Valuation

/-!
# What operators mean

`Op.Yields` says what an operator gives in terms of the numbers that its
operands stand for, unsigned (`toNat`) and signed (`toInt`), and of their bits.
It uses no operation on bit-vectors.

* `toInt_mul_signExtend` to `toInt_emod_two_pow`: the operations on bit-vectors
  that `Op.compute` uses, as operations on numbers.
* `isFirstSet_firstSet`: the place that is found by going through all of them.
* `Op.yields_compute`: what an operator computes is what it means.
* `Op.operator_meaning`: an operator on terms that it takes succeeds, adds no
  constraints, and gives a term that evaluates to what the operator means.
-/

namespace SymLift.IR

variable {n v w : Nat}

/-! ## Meaning -/

/-- The unsigned quotient of SMT-LIB. -/
def quotientU (n x y : Nat) : Nat := if y = 0 then 2 ^ n - 1 else x / y

/-- The signed quotient of SMT-LIB, which rounds to zero. -/
def quotientS (x y : Int) : Int := if y = 0 then if x < 0 then 1 else -1 else x.tdiv y

/-- `k` is the first of `count` places at which there is a bit, or `count` if
there is none. -/
structure IsFirstSet (count k : Nat) (bit : Nat → Bool) : Prop where
  clear : ∀ i < k, bit i = false
  stop : k < count ∧ bit k = true ∨ k = count

namespace Family

/-- What a family of one operand gives. -/
def YieldsOne (family : Family) (x : BitVec n) (z : BitVec w) : Prop :=
  match family with
  | .not => ∀ i < n, z.getLsbD i = !x.getLsbD i
  | .cmpNEZ => z.toNat = (decide (x.toNat ≠ 0)).toNat
  | .clz => IsFirstSet n z.toNat fun i => x.getLsbD (n - 1 - i)
  | .ctz => IsFirstSet n z.toNat fun i => x.getLsbD i
  | _ => False

/-- What a family of two operands gives.  The second operand of a shift is its
amount. -/
def YieldsTwo (family : Family) (x : BitVec n) (y : BitVec v) (z : BitVec w) : Prop :=
  match family with
  | .add => z.toNat = (x.toNat + y.toNat) % 2 ^ n
  | .sub => (z.toNat : Int) = (x.toNat - y.toNat : Int) % 2 ^ n
  | .mul => z.toNat = x.toNat * y.toNat % 2 ^ n
  | .mullS => z.toInt = x.toInt * y.toInt
  | .mullU => z.toNat = x.toNat * y.toNat
  | .divU => z.toNat = quotientU n x.toNat y.toNat
  | .divS => z.toInt = (quotientS x.toInt y.toInt).bmod (2 ^ n)
  | .and => ∀ i < n, z.getLsbD i = (x.getLsbD i && y.getLsbD i)
  | .or => ∀ i < n, z.getLsbD i = (x.getLsbD i || y.getLsbD i)
  | .xor => ∀ i < n, z.getLsbD i = (x.getLsbD i ^^ y.getLsbD i)
  | .shl => z.toNat = if y.toNat < n then x.toNat * 2 ^ y.toNat % 2 ^ n else 0
  | .shr => z.toNat = if y.toNat < n then x.toNat / 2 ^ y.toNat else 0
  | .sar => z.toInt = if y.toNat < n then x.toInt / 2 ^ y.toNat else if x.toInt < 0 then -1 else 0
  | .cmpEQ => z.toNat = (decide (x.toNat = y.toNat)).toNat
  | .cmpNE => z.toNat = (decide (x.toNat ≠ y.toNat)).toNat
  | .cmpLTS => z.toNat = (decide (x.toInt < y.toInt)).toNat
  | .cmpLTU => z.toNat = (decide (x.toNat < y.toNat)).toNat
  | .cmpLES => z.toNat = (decide (x.toInt ≤ y.toInt)).toNat
  | .cmpLEU => z.toNat = (decide (x.toNat ≤ y.toNat)).toNat
  | .maxU => z.toNat = max x.toNat y.toNat
  | .not | .cmpNEZ | .clz | .ctz => False

end Family

/-- What a conversion of one operand gives. -/
def Conversion.Yields (conversion : Conversion) (source target : Nat) (x : BitVec n)
    (z : BitVec w) : Prop :=
  match conversion with
  | .unsigned => z.toNat = x.toNat
  | .signed => z.toInt = x.toInt
  | .low => z.toNat = x.toNat % 2 ^ target
  | .high => z.toNat = x.toNat / 2 ^ (source - target)
  | .join => False

/-- The low halves of a remainder and a quotient, the remainder in the high
half. -/
def halves (target : Nat) (remainder quotient : Int) : Int :=
  remainder % 2 ^ target * 2 ^ target + quotient % 2 ^ target

/-- What an operator gives. -/
def Op.Yields (op : Op) (args : List Bits) (z : Bits) : Prop :=
  match op, args with
  | .sized family _, [x] => family.YieldsOne x.value z.value
  | .sized family _, [x, y] => family.YieldsTwo x.value y.value z.value
  | .convert .join source _, [high, low] =>
    z.value.toNat = high.value.toNat * 2 ^ source + low.value.toNat
  | .convert conversion source target, [x] => conversion.Yields source target x.value z.value
  | .divMod false source target, [x, y] =>
    z.value.toNat = halves target (x.value.toNat % y.value.toNat : Nat)
      (quotientU source x.value.toNat y.value.toNat : Nat)
  | .divMod true _ target, [x, y] =>
    z.value.toNat = halves target (x.value.toInt.tmod y.value.toInt)
      (quotientS x.value.toInt y.value.toInt)
  | _, _ => False

/-! ## Operations on bit-vectors as operations on numbers -/

theorem toNat_sub_eq (x y : BitVec n) :
    ((x - y).toNat : Int) = (x.toNat - y.toNat : Int) % 2 ^ n := by
  have hwrap : (2 : Int) ^ n - y.toNat + x.toNat = x.toNat - y.toNat + 2 ^ n := by ring
  rw [BitVec.toNat_sub, Int.natCast_emod, Nat.cast_add, Nat.cast_sub y.isLt.le, Nat.cast_pow,
    Nat.cast_ofNat, hwrap, Int.add_emod_right]

/-- A product of signed operands fits in twice their width. -/
theorem toInt_mul_signExtend (pos : 0 < n) (x y : BitVec n) :
    (x.signExtend (n + n) * y.signExtend (n + n)).toInt = x.toInt * y.toInt := by
  have hhalf : (2 : Int) ^ (n + n) = 4 * 2 ^ (n * 2 - 2) := by
    rw [show n + n = n * 2 - 2 + 2 by omega, Int.pow_add, Int.mul_comm]
    rfl
  have hlow := BitVec.le_toInt_mul_toInt (x := x) (y := y)
  have hhigh := BitVec.toInt_mul_toInt_le (x := x) (y := y)
  have hpos : (0 : Int) < 2 ^ (n * 2 - 2) := Int.pow_pos (by decide)
  rw [BitVec.toInt_mul, BitVec.toInt_signExtend_of_le (Nat.le_add_left n n),
    BitVec.toInt_signExtend_of_le (Nat.le_add_left n n)]
  refine Int.bmod_eq_of_le_mul_two ?_ ?_
  · push_cast
    omega
  · push_cast
    omega

theorem toNat_mul_setWidth (x y : BitVec n) :
    (x.setWidth (n + n) * y.setWidth (n + n)).toNat = x.toNat * y.toNat := by
  have hfits : x.toNat * y.toNat < 2 ^ (n + n) := by
    rw [Nat.pow_add]
    exact Nat.mul_lt_mul'' x.isLt y.isLt
  rw [BitVec.toNat_mul, BitVec.toNat_setWidth_of_le (Nat.le_add_left n n),
    BitVec.toNat_setWidth_of_le (Nat.le_add_left n n), Nat.mod_eq_of_lt hfits]

theorem toNat_smtUDiv (x y : BitVec n) : (x.smtUDiv y).toNat = quotientU n x.toNat y.toNat := by
  rw [BitVec.smtUDiv_eq, quotientU]
  by_cases hy : y = 0#n
  · rw [if_pos hy, if_pos (by rw [hy]; rfl), BitVec.toNat_allOnes]
  · have hn : y.toNat ≠ 0 := fun h => hy (BitVec.eq_of_toNat_eq (h.trans BitVec.toNat_zero.symm))
    rw [if_neg hy, if_neg hn, BitVec.toNat_udiv]

theorem toInt_smtSDiv (pos : 0 < n) (x y : BitVec n) :
    (x.smtSDiv y).toInt = (quotientS x.toInt y.toInt).bmod (2 ^ n) := by
  have hlarge : 2 ^ 1 ≤ 2 ^ n := Nat.pow_le_pow_right Nat.two_pos pos
  rw [quotientS]
  by_cases hy : y = 0#n
  · rw [hy, BitVec.smtSDiv_zero, BitVec.slt_zero_eq_msb, BitVec.msb_eq_toInt, BitVec.toInt_zero,
      if_pos rfl]
    by_cases hx : x.toInt < 0
    · rw [if_pos (decide_eq_true hx), if_pos hx, BitVec.toInt_ofNat']
      rfl
    · have hminus : (-1 : Int).bmod (2 ^ n) = -1 := Int.bmod_eq_of_le_mul_two (by omega) (by omega)
      rw [decide_eq_false hx, if_neg Bool.false_ne_true, if_neg hx, hminus, BitVec.toInt_allOnes,
        if_pos pos]
  · have hn : y.toInt ≠ 0 := fun h => hy (BitVec.eq_of_toInt_eq (h.trans BitVec.toInt_zero.symm))
    rw [if_neg hn, Word.smtSDiv_eq_sdiv hy, BitVec.toInt_sdiv]

/-- The low bits of a number that is cut to more bits are its own. -/
theorem bmod_emod_two_pow (le : v ≤ n) (a : Int) : a.bmod (2 ^ n) % 2 ^ v = a % 2 ^ v := by
  have hdvd : (2 : Int) ^ v ∣ ((2 ^ n : Nat) : Int) := by
    rw [Nat.cast_pow]
    exact pow_dvd_pow 2 le
  rw [← Int.emod_emod_of_dvd _ hdvd, Int.bmod_emod, Int.emod_emod_of_dvd _ hdvd]

theorem toInt_emod_two_pow (le : v ≤ n) (x : BitVec n) : x.toInt % 2 ^ v = x.toNat % 2 ^ v := by
  rw [BitVec.toInt_eq_toNat_bmod, bmod_emod_two_pow le]

/-- The low halves of two words, one above the other. -/
theorem toNat_halves (remainder quotient : BitVec n) :
    ((remainder.setWidth v ++ quotient.setWidth v).toNat : Int) =
      halves v remainder.toNat quotient.toNat := by
  rw [BitVec.toNat_append, ← Nat.shiftLeft_add_eq_or_of_lt (quotient.setWidth v).isLt,
    Nat.shiftLeft_eq, BitVec.toNat_setWidth, BitVec.toNat_setWidth, halves]
  push_cast
  rfl

/-- Only the low bits of remainder and quotient matter. -/
theorem halves_congr {r r' q q' : Int} (hr : r % 2 ^ v = r' % 2 ^ v)
    (hq : q % 2 ^ v = q' % 2 ^ v) : halves v r q = halves v r' q' := by
  rw [halves, halves, hr, hq]

theorem toNat_shiftLeft_eq (x : BitVec n) (k : Nat) :
    (x <<< k).toNat = if k < n then x.toNat * 2 ^ k % 2 ^ n else 0 := by
  by_cases hk : k < n
  · rw [if_pos hk, BitVec.toNat_shiftLeft, Nat.shiftLeft_eq]
  · rw [if_neg hk, BitVec.shiftLeft_eq_zero (Nat.le_of_not_lt hk), BitVec.toNat_zero]

theorem toNat_ushiftRight_eq (x : BitVec n) (k : Nat) :
    (x >>> k).toNat = if k < n then x.toNat / 2 ^ k else 0 := by
  by_cases hk : k < n
  · rw [if_pos hk, BitVec.toNat_ushiftRight, Nat.shiftRight_eq_div_pow]
  · rw [if_neg hk, BitVec.ushiftRight_eq_zero (Nat.le_of_not_lt hk), BitVec.toNat_zero]

/-- A signed shift by the whole width leaves the sign only. -/
theorem toInt_sshiftRight_eq (x : BitVec n) (k : Nat) : (x.sshiftRight k).toInt =
    if k < n then x.toInt / 2 ^ k else if x.toInt < 0 then -1 else 0 := by
  rw [BitVec.toInt_sshiftRight, Int.shiftRight_eq_div_pow, Nat.cast_pow]
  by_cases hk : k < n
  · rw [if_pos hk]
    rfl
  · have hpow : (2 : Int) ^ n ≤ 2 ^ k := pow_le_pow_right₀ (by decide) (Nat.le_of_not_lt hk)
    have hlow := x.le_two_mul_toInt
    have hhigh := x.two_mul_toInt_lt
    rw [if_neg hk]
    by_cases hx : x.toInt < 0
    · rw [if_pos hx]
      exact Int.ediv_eq_neg_one_of_neg_of_le hx (by push_cast; omega)
    · rw [if_neg hx]
      exact Int.ediv_eq_zero_of_lt (by omega) (by push_cast; omega)

/-! ## Counting zeros -/

theorem isFirstSet_firstSet (count : Nat) (bit : Nat → Bool) :
    IsFirstSet count (firstSet count bit) bit := by
  unfold firstSet
  cases hfind : (List.range count).find? bit with
  | none =>
    rw [List.find?_range_eq_none] at hfind
    exact ⟨fun i hi => Bool.eq_false_of_not_eq_true' (hfind i hi), .inr rfl⟩
  | some k =>
    obtain ⟨hbit, hk, hclear⟩ := List.find?_range_eq_some.1 hfind
    exact ⟨fun i hi => Bool.eq_false_of_not_eq_true' (hclear i hi),
      .inl ⟨List.mem_range.1 hk, hbit⟩⟩

theorem IsFirstSet.le {count k : Nat} {bit : Nat → Bool} (h : IsFirstSet count k bit) :
    k ≤ count := by
  rcases h.stop with ⟨hlt, -⟩ | rfl
  · exact hlt.le
  · exact Nat.le_refl _

/-- A count of places can be told in that many bits. -/
theorem isFirstSet_ofNat (bit : Nat → Bool) :
    IsFirstSet n (BitVec.ofNat n (firstSet n bit)).toNat bit := by
  have hfirst := isFirstSet_firstSet n bit
  rwa [BitVec.toNat_ofNat, Nat.mod_eq_of_lt (hfirst.le.trans_lt Nat.lt_two_pow_self)]

/-! ## Operators -/

namespace Family

variable {family : Family} {x : BitVec n} {y : BitVec v} {c : Bits}

/-- One bit that tells whether something is true. -/
theorem toNat_ofBool_eq {b : Bool} {p : Prop} [Decidable p] (h : b = true ↔ p) :
    (Bits.ofBool b).value.toNat = (decide p).toNat := by
  rw [Bits.ofBool, BitVec.toNat_ofBool, Bool.eq_iff_iff.2 (h.trans decide_eq_true_iff.symm)]

theorem yieldsOne_onOne (h : family.onOne n x = some c) : family.YieldsOne x c.value := by
  cases family with
  | not =>
    cases h
    intro i hi
    rw [BitVec.getLsbD_not, decide_eq_true hi, Bool.true_and]
  | cmpNEZ =>
    cases h
    exact toNat_ofBool_eq (bne_iff_ne.trans BitVec.toNat_inj.symm.not)
  | clz | ctz =>
    cases h
    exact isFirstSet_ofNat _
  | _ => cases h

theorem yieldsTwo_onTwo (pos : 0 < n) {y : BitVec n} (h : family.onTwo n x y = some c) :
    family.YieldsTwo x y c.value := by
  cases family with
  | add =>
    cases h
    exact BitVec.toNat_add x y
  | sub =>
    cases h
    exact toNat_sub_eq x y
  | mul =>
    cases h
    exact BitVec.toNat_mul x y
  | mullS =>
    cases h
    exact toInt_mul_signExtend pos x y
  | mullU =>
    cases h
    exact toNat_mul_setWidth x y
  | divU =>
    cases h
    exact toNat_smtUDiv x y
  | divS =>
    cases h
    exact toInt_smtSDiv pos x y
  | and =>
    cases h
    exact fun i _ => BitVec.getLsbD_and
  | or =>
    cases h
    exact fun i _ => BitVec.getLsbD_or
  | xor =>
    cases h
    exact fun i _ => BitVec.getLsbD_xor
  | cmpEQ =>
    cases h
    exact toNat_ofBool_eq (beq_iff_eq.trans BitVec.toNat_inj.symm)
  | cmpNE =>
    cases h
    exact toNat_ofBool_eq (bne_iff_ne.trans BitVec.toNat_inj.symm.not)
  | cmpLTS | cmpLTU | cmpLES | cmpLEU =>
    cases h
    exact toNat_ofBool_eq decide_eq_true_iff
  | maxU =>
    cases h
    show (if x.ult y then y else x).toNat = max x.toNat y.toNat
    by_cases hlt : x.toNat < y.toNat
    · rw [if_pos (show x.ult y = true from decide_eq_true hlt), Nat.max_eq_right hlt.le]
    · rw [if_neg (show ¬x.ult y = true from mt of_decide_eq_true hlt),
        Nat.max_eq_left (Nat.le_of_not_lt hlt)]
  | _ => cases h

theorem yieldsTwo_of_sameWidth (pos : 0 < n)
    (h : (if v = n then family.onTwo n x (y.setWidth n) else none) = some c) :
    family.YieldsTwo x y c.value := by
  split at h
  · rename_i hwidth
    subst hwidth
    rw [BitVec.setWidth_eq] at h
    exact yieldsTwo_onTwo pos h
  · cases h

theorem yieldsTwo_onPair (pos : 0 < n) (le : v ≤ n) (h : family.onPair n x y = some c) :
    family.YieldsTwo x y c.value := by
  have hamount : (y.setWidth n).toNat = y.toNat := BitVec.toNat_setWidth_of_le le
  cases family with
  | shl =>
    cases h
    rw [YieldsTwo, BitVec.shiftLeft_eq', hamount]
    exact toNat_shiftLeft_eq x _
  | shr =>
    cases h
    rw [YieldsTwo, BitVec.ushiftRight_eq', hamount]
    exact toNat_ushiftRight_eq x _
  | sar =>
    cases h
    rw [YieldsTwo, BitVec.sshiftRight_eq', hamount]
    exact toInt_sshiftRight_eq x _
  | _ => exact yieldsTwo_of_sameWidth pos h

end Family

theorem Conversion.yields_onOne {conversion : Conversion} {source target : Nat}
    {x : BitVec source} {c : Bits} (hhigh : conversion = .high → target ≤ source)
    (h : conversion.onOne source target x = some c) :
    conversion.Yields source target x c.value := by
  cases conversion with
  | unsigned =>
    cases h
    exact BitVec.toNat_setWidth_of_le (Nat.le_add_right _ _)
  | signed =>
    cases h
    exact BitVec.toInt_signExtend_of_le (Nat.le_add_right _ _)
  | low =>
    cases h
    exact BitVec.toNat_setWidth target x
  | high =>
    cases h
    have hfits : x.toNat / 2 ^ (source - target) < 2 ^ target := by
      rw [Nat.div_lt_iff_lt_mul (Nat.two_pow_pos _), ← Nat.pow_add,
        Nat.add_sub_cancel' (hhigh rfl)]
      exact x.isLt
    rw [Yields, BitVec.extractLsb'_toNat, Nat.shiftRight_eq_div_pow, Nat.mod_eq_of_lt hfits]
  | join => cases h

namespace Op

/-- The low halves of remainder and quotient by a divisor that is extended. -/
theorem yields_quotientAndRemainder (signed : Bool) {source target : Nat} (pos : 0 < source)
    (le : target ≤ source) (x : BitVec source) (y : BitVec target) :
    (Op.divMod signed source target).Yields [⟨source, x⟩, ⟨target, y⟩]
      (quotientAndRemainder signed target x y) := by
  cases signed with
  | true =>
    show (((x.srem (y.signExtend source)).setWidth target ++
      (x.smtSDiv (y.signExtend source)).setWidth target).toNat : Int) = _
    have hdivisor : (y.signExtend source).toInt = y.toInt := BitVec.toInt_signExtend_of_le le
    rw [toNat_halves]
    apply halves_congr
    · rw [← toInt_emod_two_pow le, BitVec.toInt_srem, hdivisor]
    · rw [← toInt_emod_two_pow le, toInt_smtSDiv pos, bmod_emod_two_pow le, hdivisor]
  | false =>
    show (((x % y.setWidth source).setWidth target ++
      (x.smtUDiv (y.setWidth source)).setWidth target).toNat : Int) = _
    have hdivisor : (y.setWidth source).toNat = y.toNat := BitVec.toNat_setWidth_of_le le
    rw [toNat_halves, BitVec.toNat_umod, toNat_smtUDiv, hdivisor]

theorem of_widths_one {values : List Bits} (h : values.map (·.width) = [n]) :
    ∃ x : BitVec n, values = [⟨n, x⟩] := by
  obtain ⟨⟨_, x⟩, rest, rfl, rfl, hrest⟩ := List.map_eq_cons_iff.1 h
  rw [List.map_eq_nil_iff.1 hrest]
  exact ⟨x, rfl⟩

theorem of_widths_two {values : List Bits} (h : values.map (·.width) = [n, v]) :
    ∃ (x : BitVec n) (y : BitVec v), values = [⟨n, x⟩, ⟨v, y⟩] := by
  obtain ⟨⟨_, x⟩, rest, rfl, rfl, hrest⟩ := List.map_eq_cons_iff.1 h
  obtain ⟨y, rfl⟩ := of_widths_one hrest
  exact ⟨x, y, rfl⟩

theorem yields_convert (conversion : Conversion) (source target : Nat) (x z : Bits) :
    (Op.convert conversion source target).Yields [x] z =
      conversion.Yields source target x.value z.value := by
  cases conversion <;> rfl

/-- What an operator computes is what it means. -/
theorem yields_compute {op : Op} {widths : List Nat} {values : List Bits} {c : Bits}
    (h : op.Takes widths w) (hamount : widths.Pairwise (· ≥ ·))
    (hvalues : values.map (·.width) = widths) (hc : op.compute values = some c) :
    op.Yields values c := by
  cases h with
  | sameWidth hf hn | comparison hf hn | shift _ hf hn =>
    obtain ⟨x, y, rfl⟩ := of_widths_two hvalues
    exact Family.yieldsTwo_onPair hn.1 (List.rel_of_pairwise_cons hamount List.mem_cons_self) hc
  | wideProduct hf pos le =>
    obtain ⟨x, y, rfl⟩ := of_widths_two hvalues
    exact Family.yieldsTwo_onPair pos (Nat.le_refl _) hc
  | nonzero | count =>
    obtain ⟨x, rfl⟩ := of_widths_one hvalues
    rw [compute] at hc
    exact Family.yieldsOne_onOne hc
  | extend hf =>
    obtain ⟨x, rfl⟩ := of_widths_one hvalues
    have hhigh : .high ∉ [Conversion.unsigned, .signed] := by decide
    rw [compute_convert] at hc
    rw [yields_convert]
    exact Conversion.yields_onOne (fun h => absurd (h ▸ hf) hhigh) hc
  | cut hf hs ht le =>
    obtain ⟨x, rfl⟩ := of_widths_one hvalues
    rw [compute_convert] at hc
    rw [yields_convert]
    exact Conversion.yields_onOne (fun _ => le) hc
  | join hs ht h =>
    obtain ⟨x, y, rfl⟩ := of_widths_two hvalues
    cases hc
    show (x ++ y).toNat = _
    rw [BitVec.toNat_append, ← Nat.shiftLeft_add_eq_or_of_lt y.isLt, Nat.shiftLeft_eq]
  | divMod signed hs ht h =>
    rename_i target
    obtain ⟨x, y, rfl⟩ := of_widths_two hvalues
    have hfits : target + (w - target) = w := by omega
    rw [compute, if_pos hfits] at hc
    cases hc
    exact yields_quotientAndRemainder signed hs.1 (by omega) x y

theorem exists_evaluates {m : Model} {widths : List Nat} {args : List Term}
    (hargs : List.Forall₂ (fun v t => t.HasSort (.bitVec v)) widths args) (hm : m.Total) :
    ∃ values : List Bits, List.Forall₂ (Term.Evaluates m) args values ∧
      values.map (·.width) = widths := by
  induction hargs with
  | nil => exact ⟨[], .nil, rfl⟩
  | cons ht _ ih =>
    obtain ⟨x, hx⟩ := ht.exists_denotes hm
    obtain ⟨values, hvalues, hwidths⟩ := ih
    exact ⟨⟨_, x⟩ :: values, .cons ⟨ht.width_pos, hx⟩ hvalues, congrArg (_ :: ·) hwidths⟩

/-- An operator on terms of the widths that it takes succeeds and adds no
constraints.  The term that it gives has the declared width, and evaluates
under every model to what the operator means.  Only the amount of a shift could
be wider than the operand before it. -/
theorem operator_meaning {op : Op} {widths : List Nat} {args : List Term}
    (h : op.Takes widths w) (hamount : widths.Pairwise (· ≥ ·))
    (hargs : List.Forall₂ (fun v t => t.HasSort (.bitVec v)) widths args) :
    ∃ t, PathState.liftOp op (args.map fun arg => { value := arg, needs := [] }) =
        .ok { value := t, needs := [] } ∧
      t.HasSort (.bitVec w) ∧
      ∀ m : Model, m.Total → ∃ (values : List Bits) (z : BitVec w),
        List.Forall₂ (fun arg c => arg.eval m = .ok (.word c.value.toNat c.width)) args values ∧
        values.map (·.width) = widths ∧
        t.eval m = .ok (.word z.toNat w) ∧ op.Yields values ⟨w, z⟩ := by
  obtain ⟨t, ht, hsort⟩ := hasSort_apply h hargs
  refine ⟨t, ?_, hsort, fun m hm => ?_⟩
  · have hvalues : (args.map fun arg => ({ value := arg, needs := [] } : Lifted)).map (·.value) =
        args := by
      rw [List.map_map]
      exact List.map_id' args
    have hneeds : (args.map fun arg => ({ value := arg, needs := [] } : Lifted)).flatMap (·.needs) =
        [] := by
      rw [List.flatMap_eq_nil_iff, List.forall_mem_map]
      exact fun _ _ => rfl
    rw [PathState.liftOp, hvalues, hneeds, ht]
    rfl
  · obtain ⟨values, hvalues, hwidths⟩ := exists_evaluates hargs hm
    obtain ⟨⟨v, z⟩, hc, -, hz⟩ := evaluates_apply hvalues (hsort.width_eq ▸ hsort.width_le) ht
    obtain rfl : v = w := hz.width_eq.symm.trans hsort.width_eq
    exact ⟨values, z, hvalues.imp fun _ _ hvalue => hvalue.2.eval_eq, hwidths, hz.eval_eq,
      yields_compute h hamount hwidths hc⟩

/-- A signed shift by more than the width, by an amount of fewer bits. -/
theorem operator_meaning_sar :
    ∃ t, PathState.liftOp (.sized .sar 16) [{ value := .var "x" 16, needs := [] },
        { value := .const 200 8, needs := [] }] = .ok { value := t, needs := [] } ∧
      ∃ z : BitVec 16, t.eval (fun _ => some 0x8000) = .ok (.word z.toNat 16) ∧ z.toInt = -1 := by
  have htakes : (Op.sized .sar 16).Takes [16, 8] 16 :=
    .shift 8 (by decide) ⟨by decide, by decide⟩
  have hargs : List.Forall₂ (fun v (t : Term) => t.HasSort (.bitVec v)) [16, 8]
      [.var "x" 16, .const 200 8] :=
    .cons (.var _ (by decide) (by decide))
      (.cons (.const (by decide) (by decide) (by decide)) .nil)
  obtain ⟨t, ht, -, hmeaning⟩ := operator_meaning htakes (by decide) hargs
  obtain ⟨values, z, hvalues, hwidths, hz, hyields⟩ :=
    hmeaning (fun _ => some 0x8000) fun _ => ⟨_, rfl⟩
  obtain ⟨x, y, rfl⟩ := of_widths_two hwidths
  obtain ⟨hx, hy⟩ := List.forall₂_cons.1 hvalues
  have hx : x = 0x8000 := BitVec.eq_of_toNat_eq (Value.word.inj (Except.ok.inj hx)).1.symm
  have hy : y = 200 :=
    BitVec.eq_of_toNat_eq (Value.word.inj (Except.ok.inj (List.forall₂_cons.1 hy).1)).1.symm
  subst hx hy
  exact ⟨t, ht, z, hz, hyields⟩

end Op

end SymLift.IR
