import SymLift.Proofs.FlagSorts

/-!
# The widths that operators take and give

`Op.Takes op widths w` says that an operator takes operands of some widths and
gives a result of width `w`.  The amount of a shift may have any width.

`Op.hasSort_apply` says that an operator on operands that it takes succeeds,
with a well-formed term of the width of its result.  So no constructor that
it calls is applied outside its domain.
-/

namespace SymLift.IR.Op

open Term (HasSort)

/-- A width that a term can have. -/
def InRange (width : Nat) : Prop := 0 < width ∧ width ≤ Word.maxBits

/-- The widths of operands and result of an operator. -/
inductive Takes : Op → List Nat → Nat → Prop where
  /-- Arithmetic, logic and the maximum. -/
  | sameWidth {family : Family} {n : Nat}
    (hf : family ∈ [.add, .sub, .mul, .divU, .divS, .and, .or, .xor, .maxU]) (hn : InRange n) :
    Takes (.sized family n) [n, n] n
  | shift {family : Family} {n : Nat} (amount : Nat) (hf : family ∈ [.shl, .shr, .sar])
    (hn : InRange n) : Takes (.sized family n) [n, amount] n
  | wideProduct {family : Family} {n : Nat} (hf : family ∈ [.mullS, .mullU]) (pos : 0 < n)
    (le : n ≤ 64) : Takes (.sized family n) [n, n] (2 * n)
  | comparison {family : Family} {n : Nat}
    (hf : family ∈ [.cmpEQ, .cmpNE, .cmpLTS, .cmpLTU, .cmpLES, .cmpLEU]) (hn : InRange n) :
    Takes (.sized family n) [n, n] 1
  | nonzero {n : Nat} (hn : InRange n) : Takes (.sized .cmpNEZ n) [n] 1
  | count {family : Family} {n : Nat} (hf : family ∈ [.not, .clz, .ctz]) (hn : InRange n) :
    Takes (.sized family n) [n] n
  | extend {conversion : Conversion} {source target : Nat}
    (hc : conversion ∈ [.unsigned, .signed]) (hs : InRange source) (ht : InRange target)
    (le : source ≤ target) : Takes (.convert conversion source target) [source] target
  | cut {conversion : Conversion} {source target : Nat} (hc : conversion ∈ [.low, .high])
    (hs : InRange source) (ht : InRange target) (le : target ≤ source) :
    Takes (.convert conversion source target) [source] target
  | join {source target : Nat} (hs : InRange source) (ht : InRange target)
    (h : target = 2 * source) : Takes (.convert .join source target) [source, source] target
  | divMod {source target : Nat} (signed : Bool) (hs : InRange source) (ht : InRange target)
    (h : source = 2 * target) : Takes (.divMod signed source target) [source, target] source

variable {arg left right cond : Term} {n v w source target : Nat}

/-- An operator takes as many operands as its arity says. -/
theorem Takes.length_eq {op : Op} {widths : List Nat} (h : op.Takes widths w) :
    op.arity = widths.length := by
  -- Families and conversions decide the arity, and the widths play no part.
  cases h with
  | sameWidth hf =>
    have htwo : ∀ family ∈ [.add, .sub, .mul, .divU, .divS, .and, .or, .xor, .maxU],
      (Op.sized family 0).arity = 2 := by decide
    exact htwo _ hf
  | shift _ hf =>
    have htwo : ∀ family ∈ [.shl, .shr, .sar], (Op.sized family 0).arity = 2 := by decide
    exact htwo _ hf
  | wideProduct hf =>
    have htwo : ∀ family ∈ [.mullS, .mullU], (Op.sized family 0).arity = 2 := by decide
    exact htwo _ hf
  | comparison hf =>
    have htwo : ∀ family ∈ [.cmpEQ, .cmpNE, .cmpLTS, .cmpLTU, .cmpLES, .cmpLEU],
      (Op.sized family 0).arity = 2 := by decide
    exact htwo _ hf
  | count hf =>
    have hone : ∀ family ∈ [.not, .clz, .ctz], (Op.sized family 0).arity = 1 := by decide
    exact hone _ hf
  | extend hc =>
    have hone : ∀ conversion ∈ [.unsigned, .signed], (Op.convert conversion 0 0).arity = 1 := by
      decide
    exact hone _ hc
  | cut hc =>
    have hone : ∀ conversion ∈ [.low, .high], (Op.convert conversion 0 0).arity = 1 := by decide
    exact hone _ hc
  | nonzero | join | divMod => rfl

/-! ## Operators of one width -/

theorem hasSort_flag (h : cond.HasSort .bool) :
    ∃ t, flag cond = .ok t ∧ t.HasSort (.bitVec 1) :=
  ⟨_, FlagBuild.truthBit_ok h.sort_eq, FlagBits.hasSort_truthBit h⟩

theorem hasSort_binary (op : BinaryOp) (hl : left.HasSort (.bitVec n))
    (hr : right.HasSort (.bitVec n)) :
    ∃ t, Build.binary op left right = .ok t ∧ t.HasSort (.bitVec n) :=
  ⟨_, Build.binary_ok (hl.width_eq.trans hr.width_eq.symm), Fold.hasSort_binary op hl hr⟩

theorem hasSort_compare (op : CompareOp) (hl : left.HasSort (.bitVec n))
    (hr : right.HasSort (.bitVec n)) :
    ∃ t, (do flag (← Build.compare op left right)) = .ok t ∧ t.HasSort (.bitVec 1) := by
  rw [Build.compare_ok (hl.width_eq.trans hr.width_eq.symm), ok_bind]
  exact hasSort_flag (Fold.hasSort_compare op hl hr)

theorem hasSort_notEqual (hl : left.HasSort (.bitVec n)) (hr : right.HasSort (.bitVec n)) :
    ∃ t, (do flag (← Build.notEqual left right)) = .ok t ∧ t.HasSort (.bitVec 1) := by
  have hequal := Fold.hasSort_compare .eq hl hr
  rw [Build.notEqual, Build.compare_ok (hl.width_eq.trans hr.width_eq.symm), ok_bind,
    Build.not_ok hequal.isBool, ok_bind]
  exact hasSort_flag (Fold.hasSort_not hequal)

theorem hasSort_shift (op : BinaryOp) (hl : left.HasSort (.bitVec n))
    (hr : right.HasSort (.bitVec v)) :
    ∃ t, Build.shift op left right = .ok t ∧ t.HasSort (.bitVec n) := by
  have hamount := Fold.hasSort_resize hr hl.width_pos hl.width_le
  rw [Build.shift, hl.width_eq, Build.resize_ok hl.width_pos hl.width_le, ok_bind]
  exact hasSort_binary op hl hamount

theorem hasSort_wideProduct {extend : Term → Except Fault Term} {extended : Term → Term}
    (hextend : ∀ {t : Term}, t.HasSort (.bitVec n) →
      extend t = .ok (extended t) ∧ (extended t).HasSort (.bitVec (n + n)))
    (hl : left.HasSort (.bitVec n)) (hr : right.HasSort (.bitVec n)) :
    ∃ t, wideProduct extend left right = .ok t ∧ t.HasSort (.bitVec (2 * n)) := by
  rw [wideProduct, (hextend hl).1, ok_bind, (hextend hr).1, ok_bind, Nat.two_mul]
  exact hasSort_binary .mul (hextend hl).2 (hextend hr).2

/-- The places that are looked at are those of bits. -/
theorem hasSort_countZeros {place : Nat → Nat} (h : arg.HasSort (.bitVec n))
    (hplace : ∀ i < n, place i < n) :
    ∃ t, countZeros arg n place = .ok t ∧ t.HasSort (.bitVec n) := by
  have hlit (value : Nat) : (Fold.lit value n).HasSort (.bitVec n) :=
    Fold.hasSort_lit h.width_pos h.width_le
  have hbit {i : Nat} (hi : i < n) :
      (Fold.extract (place i) (place i) arg).HasSort (.bitVec 1) :=
    FlagBits.hasSort_bit h (hplace i hi)
  have htest {i : Nat} (hi : i < n) :
      (Fold.compare .eq (Fold.extract (place i) (place i) arg) (Fold.lit 1 1)).HasSort .bool :=
    Fold.hasSort_compare .eq (hbit hi) (Fold.hasSort_lit Nat.one_pos (by decide))
  have hset {i : Nat} (hi : i < n) :
      (do Build.compare .eq (← Build.extract (place i) (place i) arg) (Fold.lit 1 1)) =
        .ok (Fold.compare .eq (Fold.extract (place i) (place i) arg) (Fold.lit 1 1)) := by
    have hone : (Fold.lit 1 1).width = 1 := rfl
    rw [Build.extract_ok (Nat.le_refl _) (by rw [h.width_eq]; exact hplace i hi), ok_bind,
      Build.compare_ok ((hbit hi).width_eq.trans hone.symm)]
  have hselect := FlagBuild.select_ok (List.range n)
    (fun i hi => ⟨hset (List.mem_range.1 hi), (htest (List.mem_range.1 hi)).sort_eq⟩)
    (fun i _ => ⟨rfl, (hlit i).sort_eq⟩) (hlit n).sort_eq
  simp only [bind_assoc, ok_bind] at hselect
  refine ⟨_, ?_, FlagBits.hasSort_select (List.range n)
    (fun i hi => htest (List.mem_range.1 hi)) (fun i _ => hlit i) (hlit n)⟩
  rw [countZeros, Build.lit_ok h.width_pos h.width_le, ok_bind]
  exact hselect.1

/-! ## Conversions and divisions -/

theorem hasSort_zeroExt (h : arg.HasSort (.bitVec v)) (le : v ≤ w) (hw : w ≤ Word.maxBits) :
    Build.zeroExt (w - v) arg = .ok (Fold.zeroExt (w - v) arg) ∧
      (Fold.zeroExt (w - v) arg).HasSort (.bitVec w) := by
  have hwide : (Fold.zeroExt (w - v) arg).HasSort (.bitVec (v + (w - v))) :=
    Fold.hasSort_zeroExt h (by omega)
  rw [Nat.add_sub_cancel' le] at hwide
  exact ⟨Build.zeroExt_ok (by rw [h.width_eq]; omega), hwide⟩

theorem hasSort_signExt (h : arg.HasSort (.bitVec v)) (le : v ≤ w) (hw : w ≤ Word.maxBits) :
    Build.signExt (w - v) arg = .ok (Fold.signExt (w - v) arg) ∧
      (Fold.signExt (w - v) arg).HasSort (.bitVec w) := by
  have hwide : (Fold.signExt (w - v) arg).HasSort (.bitVec (v + (w - v))) :=
    Fold.hasSort_signExt h (by omega)
  rw [Nat.add_sub_cancel' le] at hwide
  exact ⟨Build.signExt_ok (by rw [h.width_eq]; omega), hwide⟩

/-- The `w` bits from `lo` up. -/
theorem hasSort_extract {lo : Nat} (h : arg.HasSort (.bitVec v)) (pos : 0 < w) (le : lo + w ≤ v) :
    Build.extract (lo + w - 1) lo arg = .ok (Fold.extract (lo + w - 1) lo arg) ∧
      (Fold.extract (lo + w - 1) lo arg).HasSort (.bitVec w) := by
  have hcut : (Fold.extract (lo + w - 1) lo arg).HasSort (.bitVec (lo + w - 1 - lo + 1)) :=
    Fold.hasSort_extract (by omega) (by omega) h
  rw [show lo + w - 1 - lo + 1 = w by omega] at hcut
  exact ⟨Build.extract_ok (by omega) (by rw [h.width_eq]; omega), hcut⟩

theorem hasSort_low (h : arg.HasSort (.bitVec v)) (pos : 0 < w) (le : w ≤ v) :
    Build.extract (w - 1) 0 arg = .ok (Fold.extract (w - 1) 0 arg) ∧
      (Fold.extract (w - 1) 0 arg).HasSort (.bitVec w) := by
  have hcut := hasSort_extract h pos (Nat.zero_add w ▸ le)
  rwa [Nat.zero_add] at hcut

theorem hasSort_applyConversion {conversion : Conversion} (hc : conversion ≠ .join)
    (hfits : conversionFits conversion source target = true) (ht : InRange target)
    (h : arg.HasSort (.bitVec source)) :
    ∃ t, applyConversion conversion source target arg = .ok t ∧ t.HasSort (.bitVec target) := by
  have pos := h.width_pos
  cases conversion with
  | unsigned => exact ⟨_, hasSort_zeroExt h (of_decide_eq_true hfits) ht.2⟩
  | signed => exact ⟨_, hasSort_signExt h (of_decide_eq_true hfits) ht.2⟩
  | low =>
    unfold applyConversion
    rw [FlagBuild.topPlace_ok ht.1, ok_bind]
    exact ⟨_, hasSort_low h ht.1 (of_decide_eq_true hfits)⟩
  | high =>
    have le : target ≤ source := of_decide_eq_true hfits
    have htop := hasSort_extract h ht.1 (Nat.sub_add_cancel le).le
    rw [Nat.sub_add_cancel le] at htop
    rw [applyConversion, FlagBuild.topPlace_ok pos, ok_bind]
    exact ⟨_, htop⟩
  | join => exact absurd rfl hc

/-- Quotient and remainder by a divisor of the width of the dividend. -/
theorem hasSort_divideBy (quotOp remOp : BinaryOp) {divisor : Term} (pos : 0 < n)
    (hl : left.HasSort (.bitVec (2 * n))) (hd : divisor.HasSort (.bitVec (2 * n))) :
    ∃ t, (do
      let quotient ← Build.binary quotOp left divisor
      let remainder ← Build.binary remOp left divisor
      Build.concat (← Build.extract (n - 1) 0 remainder) (← Build.extract (n - 1) 0 quotient)) =
        .ok t ∧ t.HasSort (.bitVec (2 * n)) := by
  have hwide := hl.width_le
  obtain ⟨quotient, hquotient, hquotientSort⟩ := hasSort_binary quotOp hl hd
  obtain ⟨remainder, hremainder, hremainderSort⟩ := hasSort_binary remOp hl hd
  obtain ⟨hlow, hlowSort⟩ := hasSort_low hquotientSort pos (by omega)
  obtain ⟨hhigh, hhighSort⟩ := hasSort_low hremainderSort pos (by omega)
  have hfits : (Fold.extract (n - 1) 0 remainder).width +
      (Fold.extract (n - 1) 0 quotient).width ≤ Word.maxBits := by
    rw [hhighSort.width_eq, hlowSort.width_eq]
    omega
  have hboth := Fold.hasSort_concat hhighSort hlowSort (by omega)
  rw [← Nat.two_mul] at hboth
  rw [hquotient, ok_bind, hremainder, ok_bind, hhigh, ok_bind, hlow, ok_bind]
  exact ⟨_, Build.concat_ok hfits, hboth⟩

theorem hasSort_applyDivMod (signed : Bool) (hl : left.HasSort (.bitVec (2 * n)))
    (hr : right.HasSort (.bitVec n)) :
    ∃ t, applyDivMod signed (2 * n) n left right = .ok t ∧ t.HasSort (.bitVec (2 * n)) := by
  have hwide := hl.width_le
  unfold applyDivMod
  cases signed with
  | true =>
    obtain ⟨hdivisor, hsort⟩ := hasSort_signExt hr (Nat.le_mul_of_pos_left n Nat.two_pos) hwide
    simp only [if_true, hdivisor, ok_bind]
    exact hasSort_divideBy .sdiv .srem hr.width_pos hl hsort
  | false =>
    obtain ⟨hdivisor, hsort⟩ := hasSort_zeroExt hr (Nat.le_mul_of_pos_left n Nat.two_pos) hwide
    simp only [Bool.false_eq_true, if_false, hdivisor, ok_bind]
    exact hasSort_divideBy .udiv .urem hr.width_pos hl hsort

/-! ## All operators -/

theorem hasSort_applyBinary {family : Family} (h : (Op.sized family n).Takes [n, v] w)
    (hl : left.HasSort (.bitVec n)) (hr : right.HasSort (.bitVec v)) :
    ∃ t, applyBinary family n left right = .ok t ∧ t.HasSort (.bitVec w) := by
  cases h with
  | sameWidth hf hn =>
    simp only [List.mem_cons, List.not_mem_nil, or_false] at hf
    rcases hf with rfl | rfl | rfl | rfl | rfl | rfl | rfl | rfl | rfl
    · exact hasSort_binary .add hl hr
    · exact hasSort_binary .sub hl hr
    · exact hasSort_binary .mul hl hr
    · exact hasSort_binary .udiv hl hr
    · exact hasSort_binary .sdiv hl hr
    · exact hasSort_binary .and hl hr
    · exact hasSort_binary .or hl hr
    · exact hasSort_binary .xor hl hr
    · have hless := Fold.hasSort_compare .ult hl hr
      rw [applyBinary, Build.compare_ok (hl.width_eq.trans hr.width_eq.symm), ok_bind,
        Build.ite_ok hless.isBool (hr.sort_eq.trans hl.sort_eq.symm)]
      exact ⟨_, rfl, Fold.hasSort_ite hless hr hl⟩
  | shift _ hf hn =>
    simp only [List.mem_cons, List.not_mem_nil, or_false] at hf
    rcases hf with rfl | rfl | rfl
    · exact hasSort_shift .shl hl hr
    · exact hasSort_shift .lshr hl hr
    · exact hasSort_shift .ashr hl hr
  | wideProduct hf pos le =>
    have hle : n + n ≤ Word.maxBits := by
      rw [Word.maxBits]
      omega
    simp only [List.mem_cons, List.not_mem_nil, or_false] at hf
    rcases hf with rfl | rfl
    · exact hasSort_wideProduct (fun ht =>
        ⟨Build.signExt_ok (by rwa [ht.width_eq]), Fold.hasSort_signExt ht hle⟩) hl hr
    · exact hasSort_wideProduct (fun ht =>
        ⟨Build.zeroExt_ok (by rwa [ht.width_eq]), Fold.hasSort_zeroExt ht hle⟩) hl hr
  | comparison hf hn =>
    simp only [List.mem_cons, List.not_mem_nil, or_false] at hf
    rcases hf with rfl | rfl | rfl | rfl | rfl | rfl
    · exact hasSort_compare .eq hl hr
    · exact hasSort_notEqual hl hr
    · exact hasSort_compare .slt hl hr
    · exact hasSort_compare .ult hl hr
    · exact hasSort_compare .sle hl hr
    · exact hasSort_compare .ule hl hr

theorem hasSort_applyUnary {family : Family} (h : (Op.sized family n).Takes [n] w)
    (ha : arg.HasSort (.bitVec n)) :
    ∃ t, applyUnary family n arg = .ok t ∧ t.HasSort (.bitVec w) := by
  cases h with
  | nonzero hn =>
    rw [applyUnary, Build.lit_ok hn.1 hn.2, ok_bind]
    exact hasSort_notEqual ha (Fold.hasSort_lit hn.1 hn.2)
  | count hf hn =>
    have pos := hn.1
    simp only [List.mem_cons, List.not_mem_nil, or_false] at hf
    rcases hf with rfl | rfl | rfl
    · exact ⟨_, rfl, Fold.hasSort_unary .complement ha⟩
    · exact hasSort_countZeros ha fun i _ => by omega
    · exact hasSort_countZeros ha fun i hi => hi

theorem exists_hasSort_ofFault {r : Except Fault Term}
    (h : ∃ t, r = .ok t ∧ t.HasSort (.bitVec v)) :
    ∃ t, Failure.ofFault r = .ok t ∧ t.HasSort (.bitVec v) := by
  obtain ⟨t, ht, hsort⟩ := h
  exact ⟨t, Failure.ofFault_eq_ok_iff.2 ht, hsort⟩

theorem hasSort_apply_sized {family : Family} {widths : List Nat} {args : List Term}
    (h : (Op.sized family n).Takes widths w)
    (hargs : List.Forall₂ (fun v t => t.HasSort (.bitVec v)) widths args) :
    ∃ t, (Op.sized family n).apply args = .ok t ∧ t.HasSort (.bitVec w) := by
  have harity := h.length_eq
  have htwo {v : Nat} (hwidths : widths = [n, v]) :
      ∃ t, (Op.sized family n).apply args = .ok t ∧ t.HasSort (.bitVec w) := by
    subst hwidths
    obtain ⟨l, r, rfl, hl, hr⟩ := forall₂_two hargs
    change (Op.sized family n).arity = 2 at harity
    rw [apply, if_pos harity]
    exact exists_hasSort_ofFault (hasSort_applyBinary h hl hr)
  have hone (hwidths : widths = [n]) :
      ∃ t, (Op.sized family n).apply args = .ok t ∧ t.HasSort (.bitVec w) := by
    subst hwidths
    obtain ⟨a, rfl, ha⟩ := forall₂_one hargs
    change (Op.sized family n).arity = 1 at harity
    rw [apply, if_pos harity]
    exact exists_hasSort_ofFault (hasSort_applyUnary h ha)
  cases h with
  | sameWidth | shift | wideProduct | comparison => exact htwo rfl
  | nonzero | count => exact hone rfl

/-- Twice a width that words can have is no overflow. -/
theorem double_lt_widthLimit (h : 2 * n ≤ Word.maxBits) : n * 2 < Build.widthLimit :=
  Nat.lt_of_le_of_lt (by rwa [Nat.mul_comm]) (by decide : Word.maxBits < _)

theorem hasSort_apply_convert {conversion : Conversion} {source target : Nat} {widths : List Nat}
    {args : List Term} (h : (Op.convert conversion source target).Takes widths w)
    (hargs : List.Forall₂ (fun v t => t.HasSort (.bitVec v)) widths args) :
    ∃ t, (Op.convert conversion source target).apply args = .ok t ∧ t.HasSort (.bitVec w) := by
  have harity := h.length_eq
  have hone (hjoin : conversion ≠ .join) (hwidths : widths = [source])
      (hfits : conversionFits conversion source target = true) (ht : InRange target) :
      ∃ t, (Op.convert conversion source target).apply args = .ok t ∧
        t.HasSort (.bitVec target) := by
    subst hwidths
    obtain ⟨a, rfl, ha⟩ := forall₂_one hargs
    change (Op.convert conversion source target).arity = 1 at harity
    rw [apply, if_pos harity, if_pos hfits]
    exact exists_hasSort_ofFault (hasSort_applyConversion hjoin hfits ht ha)
  cases h with
  | extend hc hs ht le =>
    simp only [List.mem_cons, List.not_mem_nil, or_false] at hc
    rcases hc with rfl | rfl
    · exact hone nofun rfl (decide_eq_true le) ht
    · exact hone nofun rfl (decide_eq_true le) ht
  | cut hc hs ht le =>
    simp only [List.mem_cons, List.not_mem_nil, or_false] at hc
    rcases hc with rfl | rfl
    · exact hone nofun rfl (decide_eq_true le) ht
    · exact hone nofun rfl (decide_eq_true le) ht
  | join hs ht h =>
    obtain ⟨l, r, rfl, hl, hr⟩ := forall₂_two hargs
    have hsum : 2 * source ≤ Word.maxBits := h ▸ ht.2
    have hfits : joinFits source w = .ok true := by
      rw [joinFits, Build.checkWidth_ok (double_lt_widthLimit hsum), ok_bind,
        decide_eq_true (by omega)]
    have hboth := Fold.hasSort_concat hl hr (Nat.two_mul source ▸ hsum)
    rw [← Nat.two_mul, ← h] at hboth
    rw [apply, hfits, fault_ok_bind, if_pos rfl]
    refine exists_hasSort_ofFault ⟨_, Build.concat_ok ?_, hboth⟩
    rwa [hl.width_eq, hr.width_eq, ← Nat.two_mul]

theorem hasSort_apply_divMod {signed : Bool} {source target : Nat} {widths : List Nat}
    {args : List Term} (h : (Op.divMod signed source target).Takes widths w)
    (hargs : List.Forall₂ (fun v t => t.HasSort (.bitVec v)) widths args) :
    ∃ t, (Op.divMod signed source target).apply args = .ok t ∧ t.HasSort (.bitVec w) := by
  cases h with
  | divMod _ hs ht h =>
    obtain ⟨l, r, rfl, hl, hr⟩ := forall₂_two hargs
    subst h
    have hfits : divModFits (2 * target) target = .ok true := by
      rw [divModFits, if_neg (Nat.pos_iff_ne_zero.1 ht.1),
        Build.checkWidth_ok (double_lt_widthLimit hs.2), ok_bind,
        decide_eq_true (Nat.mul_comm target 2)]
    rw [apply, hfits, fault_ok_bind, if_pos rfl]
    exact exists_hasSort_ofFault (hasSort_applyDivMod signed hl hr)

/-- An operator succeeds on operands that it takes. -/
theorem hasSort_apply {op : Op} {widths : List Nat} {args : List Term} (h : op.Takes widths w)
    (hargs : List.Forall₂ (fun v t => t.HasSort (.bitVec v)) widths args) :
    ∃ t, op.apply args = .ok t ∧ t.HasSort (.bitVec w) := by
  cases op with
  | other => cases h
  | sized => exact hasSort_apply_sized h hargs
  | convert => exact hasSort_apply_convert h hargs
  | divMod => exact hasSort_apply_divMod h hargs

end SymLift.IR.Op
