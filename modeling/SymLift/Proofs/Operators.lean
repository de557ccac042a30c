import SymLift.IR.Apply
import SymLift.Proofs.Checked

/-!
# Operators on numbers

`Op.compute` is what an operator does to bit-vectors, without any term.  The
lemmas say that the term that `Op.apply` builds evaluates to it.

* `Bits` is a bit-vector that carries its width, and `Term.Evaluates` says
  that a term has such a value.
* `denotes_countZeros`: a chain of choices counts the zeros.
* `evaluates_applyUnary` to `evaluates_applyDivMod`: one lemma for each kind
  of operator.
* `evaluates_apply` puts them together.
-/

namespace SymLift

/-- A bit-vector and its width. -/
structure Bits where
  width : Nat
  value : BitVec width
  deriving DecidableEq

/-- One bit that tells whether something is true. -/
def Bits.ofBool (b : Bool) : Bits := ⟨1, BitVec.ofBool b⟩

/-- A term evaluates to a bit-vector of at least one bit. -/
def Term.Evaluates (m : Model) (t : Term) (c : Bits) : Prop := 0 < c.width ∧ t.Denotes m c.value

namespace IR

/-- The first of `count` places at which there is a bit, and `count` if
there is none. -/
def firstSet (count : Nat) (bit : Nat → Bool) : Nat := ((List.range count).find? bit).getD count

variable {w v : Nat}

namespace Family

/-- A family of one operand.  Only the count of zeros and the comparison
with zero look at the declared width. -/
def onOne (family : Family) (declared : Nat) (x : BitVec w) : Option Bits :=
  match family with
  | .not => some ⟨w, ~~~x⟩
  | .cmpNEZ => some (.ofBool (x != 0))
  | .clz =>
    some ⟨declared, BitVec.ofNat _ (firstSet declared fun i => x.getLsbD (declared - 1 - i))⟩
  | .ctz => some ⟨declared, BitVec.ofNat _ (firstSet declared fun i => x.getLsbD i)⟩
  | _ => none

/-- A family of two operands of one width.  A product of twice the width is
as much wider as declared. -/
def onTwo (family : Family) (declared : Nat) (x y : BitVec w) : Option Bits :=
  match family with
  | .add => some ⟨w, x + y⟩
  | .sub => some ⟨w, x - y⟩
  | .mul => some ⟨w, x * y⟩
  | .mullS => some ⟨w + declared, x.signExtend _ * y.signExtend _⟩
  | .mullU => some ⟨w + declared, x.setWidth _ * y.setWidth _⟩
  | .divU => some ⟨w, x.smtUDiv y⟩
  | .divS => some ⟨w, x.smtSDiv y⟩
  | .and => some ⟨w, x &&& y⟩
  | .or => some ⟨w, x ||| y⟩
  | .xor => some ⟨w, x ^^^ y⟩
  | .cmpEQ => some (.ofBool (x == y))
  | .cmpNE => some (.ofBool (x != y))
  | .cmpLTS => some (.ofBool (x.slt y))
  | .cmpLTU => some (.ofBool (x.ult y))
  | .cmpLES => some (.ofBool (x.sle y))
  | .cmpLEU => some (.ofBool (x.ule y))
  | .maxU => some ⟨w, if x.ult y then y else x⟩
  | _ => none

/-- A family of two operands.  The amount of a shift has any width, and
counts by as many bits as the operand has. -/
def onPair (family : Family) (declared : Nat) (x : BitVec w) (y : BitVec v) : Option Bits :=
  match family with
  | .shl => some ⟨w, x <<< y.setWidth w⟩
  | .shr => some ⟨w, x >>> y.setWidth w⟩
  | .sar => some ⟨w, x.sshiftRight' (y.setWidth w)⟩
  | _ => if v = w then onTwo family declared x (y.setWidth w) else none

end Family

/-- A conversion of one operand. -/
def Conversion.onOne (conversion : Conversion) (source target : Nat) (x : BitVec w) : Option Bits :=
  match conversion with
  | .unsigned => some ⟨w + (target - source), x.setWidth _⟩
  | .signed => some ⟨w + (target - source), x.signExtend _⟩
  | .high => some ⟨target, x.extractLsb' (source - target) target⟩
  | .low => some ⟨target, x.setWidth target⟩
  | .join => none

namespace Op

/-- The low halves of the remainder and the quotient of a dividend by an
extended divisor. -/
def quotientAndRemainder (signed : Bool) (target : Nat) (x : BitVec w) (y : BitVec v) : Bits :=
  if signed then
    let divisor := y.signExtend w
    ⟨target + target, (x.srem divisor).setWidth target ++ (x.smtSDiv divisor).setWidth target⟩
  else
    let divisor := y.setWidth w
    ⟨target + target, (x % divisor).setWidth target ++ (x.smtUDiv divisor).setWidth target⟩

/-- The value of an operator. -/
def compute (op : Op) (args : List Bits) : Option Bits :=
  match op, args with
  | .sized family width, [x] => family.onOne width x.value
  | .sized family width, [x, y] => family.onPair width x.value y.value
  | .convert .join _ _, [high, low] => some ⟨high.width + low.width, high.value ++ low.value⟩
  | .convert conversion source target, [x] => conversion.onOne source target x.value
  | .divMod signed source target, [x, y] =>
    if y.width + (source - target) = x.width then
      some (quotientAndRemainder signed target x.value y.value)
    else none
  | _, _ => none

end Op

/-! ## Counting zeros -/

open Term

variable {m : Model} {arg left right t : Term} {x : BitVec w} {y : BitVec v}

theorem denotes_flag {b : Bool} {cond : Term} (h : Op.flag cond = .ok t) (hc : cond.Decides m b) :
    t.Denotes m (BitVec.ofBool b) := by
  have ht := Build.denotes_boolToBits h hc
  cases b <;> exact ht

/-- One step of the count: the answer is this place if its bit is set. -/
theorem denotes_countStep {place i n : Nat} {rest : Term} {z : BitVec n} (hn : n ≤ Word.maxBits)
    (harg : arg.Denotes m x) (hrest : rest.Denotes m z)
    (h : (do
      let set ← Build.compare .eq (← Build.extract place place arg) (Fold.lit 1 1)
      Build.ite set (Fold.lit i n) rest) = .ok t) :
    t.Denotes m (if x.getLsbD place then BitVec.ofNat n i else z) := by
  obtain ⟨bit, hbit, hrest'⟩ := bind_eq_ok_iff.1 h
  obtain ⟨set, hset, hite⟩ := bind_eq_ok_iff.1 hrest'
  obtain ⟨⟨-, hplace⟩, rfl⟩ := Build.of_extract hbit
  rw [harg.width_eq] at hplace
  have hone := Fold.denotes_lit (m := m) 1 (show 1 ≤ Word.maxBits by decide)
  have htruth := (Build.decides_compare hset (Fold.denotes_bit place hplace harg) hone).2
  have hbit : CompareOp.onBits .eq (BitVec.ofBool (x.getLsbD place)) (BitVec.setWidth 1 1#1) =
      x.getLsbD place := by
    cases x.getLsbD place <;> rfl
  rw [hbit] at htruth
  refine Build.denotes_ite hite htruth ?_
  cases x.getLsbD place with
  | true => exact Fold.denotes_lit i hn
  | false => exact hrest

/-- A chain of choices finds the first place whose bit is set. -/
theorem denotes_countZeros {n : Nat} {place : Nat → Nat} (harg : arg.Denotes m x)
    (h : Op.countZeros arg n place = .ok t) :
    0 < n ∧ t.Denotes m (BitVec.ofNat n (firstSet n fun i => x.getLsbD (place i))) := by
  obtain ⟨last, hlast, hfold⟩ := bind_eq_ok_iff.1 h
  obtain ⟨hn, rfl⟩ := Build.of_lit hlast
  refine ⟨hn.1, ?_⟩
  unfold firstSet
  clear h hlast
  generalize List.range n = places at hfold
  induction places generalizing t with
  | nil =>
    rw [← Except.ok.inj hfold]
    exact Fold.denotes_lit n hn.2
  | cons i places ih =>
    rw [List.foldrM_cons] at hfold
    obtain ⟨rest, hrest, hchoice⟩ := bind_eq_ok_iff.1 hfold
    have hstep := denotes_countStep hn.2 harg (ih hrest) hchoice
    rw [List.find?_cons]
    cases hset : x.getLsbD (place i) with
    | true => simpa [hset] using hstep
    | false => simpa [hset] using hstep

/-! ## Families -/

theorem evaluates_applyUnary {family : Family} {declared : Nat} (pos : 0 < w)
    (harg : arg.Denotes m x) (harity : Op.arity (.sized family declared) = 1)
    (h : Op.applyUnary family declared arg = .ok t) :
    ∃ c, family.onOne declared x = some c ∧ t.Evaluates m c := by
  cases family with
  | not =>
    rw [← Except.ok.inj h]
    exact ⟨_, rfl, pos, Fold.denotes_unary .complement harg⟩
  | cmpNEZ =>
    obtain ⟨zero, hzero, h⟩ := bind_eq_ok_iff.1 h
    obtain ⟨differs, hdiffers, h⟩ := bind_eq_ok_iff.1 h
    obtain ⟨rfl, htruth⟩ := Build.decides_notEqual hdiffers harg (Build.denotes_lit hzero)
    rw [BitVec.setWidth_eq] at htruth
    exact ⟨_, rfl, Nat.one_pos, denotes_flag h htruth⟩
  | clz | ctz =>
    obtain ⟨hn, ht⟩ := denotes_countZeros harg h
    exact ⟨_, rfl, hn, ht⟩
  | _ => cases harity

/-- A product at more bits is that much wider than its operands. -/
theorem width_wideProduct {extend : Term → Except Fault Term} {n : Nat}
    (hextend : ∀ {u u'}, extend u = .ok u' → u'.width = u.width + n)
    (h : Op.wideProduct extend left right = .ok t) :
    right.width = left.width ∧ t.width = left.width + n := by
  obtain ⟨l, hl, hmul⟩ := bind_eq_ok_iff.1 h
  obtain ⟨r, hr, hmul⟩ := bind_eq_ok_iff.1 hmul
  obtain ⟨hsame, rfl⟩ := Build.of_binary hmul
  rw [Fold.width_binary, hextend hl]
  rw [hextend hl, hextend hr] at hsame
  exact ⟨by omega, rfl⟩

theorem denotes_wideProduct {extend : Term → Except Fault Term} {n : Nat} {z z' : BitVec n}
    (hleft : ∀ {u}, extend left = .ok u → u.Denotes m z)
    (hright : ∀ {u}, extend right = .ok u → u.Denotes m z')
    (h : Op.wideProduct extend left right = .ok t) : t.Denotes m (z * z') := by
  obtain ⟨l, hl, hmul⟩ := bind_eq_ok_iff.1 h
  obtain ⟨r, hr, hmul⟩ := bind_eq_ok_iff.1 hmul
  have ht := (Build.denotes_binary hmul (hleft hl) (hright hr)).2
  rwa [BitVec.setWidth_eq] at ht

theorem evaluates_applyBinary {family : Family} {declared : Nat} (pos : 0 < w)
    (hl : left.Denotes m x) (hr : right.Denotes m y)
    (harity : Op.arity (.sized family declared) = 2) (hw : t.width ≤ Word.maxBits)
    (h : Op.applyBinary family declared left right = .ok t) :
    ∃ c, family.onPair declared x y = some c ∧ t.Evaluates m c := by
  cases family with
  | add | sub | mul | divU | divS | and | or | xor =>
    obtain ⟨rfl, ht⟩ := Build.denotes_binary h hl hr
    exact ⟨_, if_pos rfl, pos, ht⟩
  | shl | shr | sar =>
    rw [← Build.of_shift h]
    exact ⟨_, rfl, pos, Fold.denotes_shift _ hl hr pos⟩
  | mullS =>
    obtain ⟨hsame, hwidth⟩ := width_wideProduct (n := declared)
      (fun hext => by rw [← Build.of_signExt hext, Fold.width_signExt]) h
    rw [hl.width_eq] at hsame hwidth
    rw [hr.width_eq] at hsame
    subst hsame
    have ht := denotes_wideProduct
      (fun hext => Build.of_signExt hext ▸ Fold.denotes_signExt hl (hwidth ▸ hw))
      (fun hext => Build.of_signExt hext ▸ Fold.denotes_signExt hr (hwidth ▸ hw)) h
    refine ⟨_, if_pos rfl, Nat.add_pos_left pos declared, ?_⟩
    rw [BitVec.setWidth_eq]
    exact ht
  | mullU =>
    obtain ⟨hsame, hwidth⟩ := width_wideProduct (n := declared)
      (fun hext => by rw [← Build.of_zeroExt hext, Fold.width_zeroExt]) h
    rw [hl.width_eq] at hsame hwidth
    rw [hr.width_eq] at hsame
    subst hsame
    have ht := denotes_wideProduct
      (fun hext => Build.of_zeroExt hext ▸ Fold.denotes_zeroExt hl (hwidth ▸ hw))
      (fun hext => Build.of_zeroExt hext ▸ Fold.denotes_zeroExt hr (hwidth ▸ hw)) h
    refine ⟨_, if_pos rfl, Nat.add_pos_left pos declared, ?_⟩
    rw [BitVec.setWidth_eq]
    exact ht
  | cmpEQ | cmpLTS | cmpLTU | cmpLES | cmpLEU =>
    obtain ⟨cond, hcond, hflag⟩ := bind_eq_ok_iff.1 h
    obtain ⟨rfl, htruth⟩ := Build.decides_compare hcond hl hr
    exact ⟨_, if_pos rfl, Nat.one_pos, denotes_flag hflag htruth⟩
  | cmpNE =>
    obtain ⟨cond, hcond, hflag⟩ := bind_eq_ok_iff.1 h
    obtain ⟨rfl, htruth⟩ := Build.decides_notEqual hcond hl hr
    exact ⟨_, if_pos rfl, Nat.one_pos, denotes_flag hflag htruth⟩
  | maxU =>
    obtain ⟨cond, hcond, hite⟩ := bind_eq_ok_iff.1 h
    obtain ⟨rfl, htruth⟩ := Build.decides_compare hcond hl hr
    refine ⟨_, if_pos rfl, pos, Build.denotes_ite hite htruth ?_⟩
    rw [BitVec.setWidth_eq]
    show Denotes m (if x.ult y then right else left) (if x.ult y then y else x)
    cases x.ult y with
    | true => exact hr
    | false => exact hl
  | not | cmpNEZ | clz | ctz => cases harity

/-! ## Conversions and division with remainder -/

theorem topPlace_eq_ok_iff {width place : Nat} :
    Op.topPlace width = .ok place ↔ width = place + 1 := by
  unfold Op.topPlace
  split
  · rename_i hzero
    simp [hzero]
  · simp only [Except.ok.injEq]
    omega

/-- The low bits of a term. -/
theorem denotes_low {target : Nat} (harg : arg.Denotes m x) (pos : 0 < target) (le : target ≤ w) :
    (Fold.extract (target - 1) 0 arg).Denotes m (x.setWidth target) := by
  have hwidth : target - 1 - 0 + 1 = target := by omega
  refine (Fold.denotes_extract (Nat.zero_le _) (by omega) harg).congr hwidth ?_
  rw [BitVec.extractLsb'_toNat, hwidth, Nat.shiftRight_zero, BitVec.toNat_setWidth]

theorem evaluates_applyConversion {conversion : Conversion} {source target : Nat} (pos : 0 < w)
    (harg : arg.Denotes m x) (harity : Op.arity (.convert conversion source target) = 1)
    (hfits : Op.conversionFits conversion source target = true) (hw : t.width ≤ Word.maxBits)
    (h : Op.applyConversion conversion source target arg = .ok t) :
    ∃ c, conversion.onOne source target x = some c ∧ t.Evaluates m c := by
  cases conversion with
  | unsigned =>
    have ht := Build.of_zeroExt h
    rw [← ht, Fold.width_zeroExt, harg.width_eq] at hw
    rw [← ht]
    exact ⟨_, rfl, Nat.add_pos_left pos _, Fold.denotes_zeroExt harg hw⟩
  | signed =>
    have ht := Build.of_signExt h
    rw [← ht, Fold.width_signExt, harg.width_eq] at hw
    rw [← ht]
    exact ⟨_, rfl, Nat.add_pos_left pos _, Fold.denotes_signExt harg hw⟩
  | low =>
    obtain ⟨top, htop, hextract⟩ := bind_eq_ok_iff.1 h
    obtain rfl := topPlace_eq_ok_iff.1 htop
    obtain ⟨⟨-, hlt⟩, rfl⟩ := Build.of_extract hextract
    rw [harg.width_eq] at hlt
    exact ⟨_, rfl, Nat.succ_pos top, denotes_low harg (Nat.succ_pos top) hlt⟩
  | high =>
    obtain ⟨top, htop, hextract⟩ := bind_eq_ok_iff.1 h
    obtain rfl := topPlace_eq_ok_iff.1 htop
    obtain ⟨⟨hle, hlt⟩, rfl⟩ := Build.of_extract hextract
    rw [harg.width_eq] at hlt
    have htarget : target ≤ top + 1 := by simpa [Op.conversionFits] using hfits
    have hwidth : top - (top + 1 - target) + 1 = target := by omega
    refine ⟨_, rfl, by dsimp only; omega, ?_⟩
    refine (Fold.denotes_extract hle hlt harg).congr hwidth ?_
    rw [BitVec.extractLsb'_toNat, BitVec.extractLsb'_toNat, hwidth]
  | join => cases harity

theorem of_divModFits {source target : Nat} (h : Op.divModFits source target = .ok true) :
    0 < target ∧ source = 2 * target := by
  unfold Op.divModFits at h
  split at h
  · cases h
  · obtain ⟨_, _, h⟩ := bind_eq_ok_iff.1 h
    simp only [Except.ok.injEq, decide_eq_true_eq] at h
    omega

/-- The low halves of two words, the first above the second. -/
theorem denotes_halves {target : Nat} {rem quot : Term} {z z' : BitVec w}
    (hrem : rem.Denotes m z) (hquot : quot.Denotes m z') (pos : 0 < target)
    (h : (do
      Build.concat (← Build.extract (target - 1) 0 rem) (← Build.extract (target - 1) 0 quot)) =
      .ok t) : t.Denotes m (z.setWidth target ++ z'.setWidth target) := by
  obtain ⟨high, hhigh, hconcat⟩ := bind_eq_ok_iff.1 h
  obtain ⟨low, hlow, hconcat⟩ := bind_eq_ok_iff.1 hconcat
  obtain ⟨⟨-, hlt⟩, rfl⟩ := Build.of_extract hhigh
  obtain ⟨-, rfl⟩ := Build.of_extract hlow
  obtain ⟨hle, rfl⟩ := Build.of_concat hconcat
  rw [hrem.width_eq] at hlt
  have hhigh := denotes_low hrem pos (by omega)
  have hlow := denotes_low hquot pos (by omega)
  rw [hhigh.width_eq, hlow.width_eq] at hle
  exact Fold.denotes_concat hhigh hlow hle

/-- Quotient and remainder by a divisor, which has a value if it is not too
wide. -/
theorem denotes_divideBy {quotOp remOp : BinaryOp} {target u : Nat} {divisor : Term}
    {z : BitVec u} (hl : left.Denotes m x)
    (hd : divisor.width ≤ Word.maxBits → divisor.Denotes m z) (pos : 0 < target)
    (h : (do
      let quotient ← Build.binary quotOp left divisor
      let remainder ← Build.binary remOp left divisor
      Build.concat (← Build.extract (target - 1) 0 remainder)
        (← Build.extract (target - 1) 0 quotient)) = .ok t) :
    u = w ∧ t.Denotes m ((remOp.onBits x (z.setWidth w)).setWidth target ++
      (quotOp.onBits x (z.setWidth w)).setWidth target) := by
  obtain ⟨quot, hquot, hrest⟩ := bind_eq_ok_iff.1 h
  obtain ⟨rem, hrem, hconcat⟩ := bind_eq_ok_iff.1 hrest
  have hdivisor : divisor.Denotes m z := by
    refine hd ?_
    rw [← (Build.of_binary hquot).1, hl.width_eq]
    exact hl.width_le
  obtain ⟨hsame, hquotient⟩ := Build.denotes_binary hquot hl hdivisor
  obtain ⟨-, hremainder⟩ := Build.denotes_binary hrem hl hdivisor
  exact ⟨hsame, denotes_halves hremainder hquotient pos hconcat⟩

theorem evaluates_applyDivMod {signed : Bool} {source target : Nat} (pos : 0 < target)
    (hl : left.Denotes m x) (hr : right.Denotes m y)
    (h : Op.applyDivMod signed source target left right = .ok t) :
    v + (source - target) = w ∧ t.Evaluates m (Op.quotientAndRemainder signed target x y) := by
  cases signed with
  | true =>
    obtain ⟨divisor, hdivisor, hdivide⟩ := bind_eq_ok_iff.1 h
    obtain rfl := Build.of_signExt hdivisor
    obtain ⟨hwidth, ht⟩ := denotes_divideBy hl
      (fun hle => Fold.denotes_signExt hr (by rwa [Fold.width_signExt, hr.width_eq] at hle)) pos
      hdivide
    subst hwidth
    rw [BitVec.setWidth_eq] at ht
    exact ⟨rfl, Nat.add_pos_left pos target, ht⟩
  | false =>
    obtain ⟨divisor, hdivisor, hdivide⟩ := bind_eq_ok_iff.1 h
    obtain rfl := Build.of_zeroExt hdivisor
    obtain ⟨hwidth, ht⟩ := denotes_divideBy hl
      (fun hle => Fold.denotes_zeroExt hr (by rwa [Fold.width_zeroExt, hr.width_eq] at hle)) pos
      hdivide
    subst hwidth
    rw [BitVec.setWidth_eq] at ht
    exact ⟨rfl, Nat.add_pos_left pos target, ht⟩

/-! ## Operators -/

section

variable {α β : Type} {R : α → β → Prop} {a b : α} {ys : List β}

theorem forall₂_one (h : List.Forall₂ R [a] ys) : ∃ x, ys = [x] ∧ R a x := by
  obtain ⟨x, rest, hx, hrest, rfl⟩ := List.forall₂_cons_left_iff.1 h
  obtain rfl := List.forall₂_nil_left_iff.1 hrest
  exact ⟨x, rfl, hx⟩

theorem forall₂_two (h : List.Forall₂ R [a, b] ys) : ∃ x y, ys = [x, y] ∧ R a x ∧ R b y := by
  obtain ⟨x, rest, hx, hrest, rfl⟩ := List.forall₂_cons_left_iff.1 h
  obtain ⟨y, rfl, hy⟩ := forall₂_one hrest
  exact ⟨x, y, rfl, hx, hy⟩

end

theorem compute_convert (conversion : Conversion) (source target : Nat) (x : Bits) :
    Op.compute (.convert conversion source target) [x] =
      conversion.onOne source target x.value := by
  cases conversion <;> rfl

/-- The term of an operator evaluates to the value of the operator. -/
theorem evaluates_apply {op : Op} {args : List Term} {values : List Bits}
    (hargs : List.Forall₂ (Term.Evaluates m) args values) (hw : t.width ≤ Word.maxBits)
    (h : op.apply args = .ok t) : ∃ c, op.compute values = some c ∧ t.Evaluates m c := by
  rw [Op.apply.eq_def] at h
  split at h
  · cases h
  · obtain ⟨x, rfl, hx⟩ := forall₂_one hargs
    split at h
    · rename_i harity
      exact evaluates_applyUnary hx.1 hx.2 harity (Failure.ofFault_eq_ok_iff.1 h)
    · cases h
  · obtain ⟨x, y, rfl, hx, hy⟩ := forall₂_two hargs
    split at h
    · rename_i harity
      exact evaluates_applyBinary hx.1 hx.2 hy.2 harity hw (Failure.ofFault_eq_ok_iff.1 h)
    · cases h
  · obtain ⟨x, y, rfl, hx, hy⟩ := forall₂_two hargs
    obtain ⟨fits, -, hconcat⟩ := bind_eq_ok_iff.1 h
    split at hconcat
    · obtain ⟨hle, rfl⟩ := Build.of_concat (Failure.ofFault_eq_ok_iff.1 hconcat)
      rw [hx.2.width_eq, hy.2.width_eq] at hle
      exact ⟨_, rfl, Nat.add_pos_left hx.1 _, Fold.denotes_concat hx.2 hy.2 hle⟩
    · cases hconcat
  · obtain ⟨x, rfl, hx⟩ := forall₂_one hargs
    split at h
    · rename_i harity
      split at h
      · rename_i hfits
        obtain ⟨c, hc, ht⟩ :=
          evaluates_applyConversion hx.1 hx.2 harity hfits hw (Failure.ofFault_eq_ok_iff.1 h)
        exact ⟨c, (compute_convert ..).trans hc, ht⟩
      · cases h
    · cases h
  · obtain ⟨x, y, rfl, hx, hy⟩ := forall₂_two hargs
    obtain ⟨fits, hfits, hdivide⟩ := bind_eq_ok_iff.1 h
    split at hdivide
    · rename_i hyes
      subst hyes
      have htarget := (of_divModFits (Failure.ofFault_eq_ok_iff.1 hfits)).1
      obtain ⟨hwidth, ht⟩ :=
        evaluates_applyDivMod htarget hx.2 hy.2 (Failure.ofFault_eq_ok_iff.1 hdivide)
      exact ⟨_, if_pos hwidth, ht⟩
    · cases hdivide
  · cases h

end IR

end SymLift
