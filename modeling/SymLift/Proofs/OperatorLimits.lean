import SymLift.Proofs.Constants
import SymLift.Proofs.OperatorChecks
import SymLift.Proofs.OperatorNames
import SymLift.Proofs.OperatorSorts

/-!
# Operators and the widest word

An operator that was read from a name can declare widths that fit no operands,
or a result that is wider than any word.  On operands of the widths that it
declares, it gives a word or is not supported, with two exceptions.

* `Op.declared`: a width for each operand.
* `Op.takes_or_unsupported`: apart from the exceptions, an operator takes
  operands of the widths that it declares, or is not supported.
* `Op.apply_wideProduct`: a product at twice the widest word is a fault if an
  operand is constant, and a term that is too wide if none is.
* `Op.apply_divMod_overflow`: the check of a division does not see a divisor of
  half the bound on widths or more.  It is a fault itself.
* `Op.apply_parsed` puts these together, and `Op.not_always_limited` says that
  the exceptions are met.
-/

namespace SymLift.IR.Op

open Term (HasSort)

variable {op : Op} {family : Family} {n source target : Nat} {a l r t : Term} {args : List Term}

/-! ## Operands of declared widths -/

/-- The widths that an operator declares for its operands.  The amount of a
shift has none. -/
def declared : Op → List (Option Nat)
  | .sized family n =>
    match family with
    | .not | .cmpNEZ | .clz | .ctz => [some n]
    | .shl | .shr | .sar => [some n, none]
    | _ => [some n, some n]
  | .convert conversion source _ =>
    match conversion with
    | .join => [some source, some source]
    | _ => [some source]
  | .divMod _ source target => [some source, some target]
  | .other _ => [none, none]

/-- A word has the width that is declared for it.  Where that is the width of
no word, it has any width. -/
def Fits (width : Option Nat) (t : Term) : Prop :=
  ∃ v, t.HasSort (.bitVec v) ∧ ∀ n, width = some n → InRange n → v = n

theorem Fits.hasSort (h : Fits (some n) t) (hn : InRange n) : t.HasSort (.bitVec n) := by
  obtain ⟨v, hv, hwidth⟩ := h
  rwa [hwidth n rfl hn] at hv

/-- An operator takes these operands. -/
def TakesArgs (op : Op) (args : List Term) : Prop :=
  ∃ widths w, op.Takes widths w ∧ List.Forall₂ (fun v t => t.HasSort (.bitVec v)) widths args

theorem TakesArgs.apply (h : op.TakesArgs args) : ∃ t v, op.apply args = .ok t ∧
    t.HasSort (.bitVec v) := by
  obtain ⟨widths, w, htakes, hargs⟩ := h
  obtain ⟨t, ht, hsort⟩ := hasSort_apply htakes hargs
  exact ⟨t, w, ht, hsort⟩

theorem inRange_of_mem (h : n ∈ widths) : InRange n := by
  have hall : ∀ n ∈ widths, 0 < n ∧ n ≤ Word.maxBits := by decide
  exact hall n h

/-! ## Operators of one width -/

/-- Operands of the declared widths are taken, unless the product is too
wide. -/
theorem takesArgs_sized (hn : InRange n) (hmull : family ∈ [.mullS, .mullU] → n ≤ 64)
    (hargs : List.Forall₂ Fits (sized family n).declared args) :
    (sized family n).TakesArgs args := by
  have hone (hargs : List.Forall₂ Fits [some n] args) :
      List.Forall₂ (fun v t => t.HasSort (.bitVec v)) [n] args := by
    obtain ⟨a, rfl, ha⟩ := forall₂_one hargs
    exact .cons (ha.hasSort hn) .nil
  have htwo (hargs : List.Forall₂ Fits [some n, some n] args) :
      List.Forall₂ (fun v t => t.HasSort (.bitVec v)) [n, n] args := by
    obtain ⟨l, r, rfl, hl, hr⟩ := forall₂_two hargs
    exact .cons (hl.hasSort hn) (.cons (hr.hasSort hn) .nil)
  cases family with
  | add | sub | mul | divU | divS | and | or | xor | maxU =>
    exact ⟨_, _, .sameWidth (by decide) hn, htwo hargs⟩
  | cmpEQ | cmpNE | cmpLTS | cmpLTU | cmpLES | cmpLEU =>
    exact ⟨_, _, .comparison (by decide) hn, htwo hargs⟩
  | mullS | mullU => exact ⟨_, _, .wideProduct (by decide) hn.1 (hmull (by decide)), htwo hargs⟩
  | not | clz | ctz => exact ⟨_, _, .count (by decide) hn, hone hargs⟩
  | cmpNEZ => exact ⟨_, _, .nonzero hn, hone hargs⟩
  | shl | shr | sar =>
    obtain ⟨l, r, rfl, hl, v, hr, -⟩ := forall₂_two hargs
    exact ⟨_, _, .shift v (by decide) hn, .cons (hl.hasSort hn) (.cons hr .nil)⟩

/-! ## Products of the widest words -/

/-- Only a constant cannot be extended past the widest word. -/
theorem checkExtension_maxBits (h : a.HasSort (.bitVec Word.maxBits)) :
    Build.checkExtension Word.maxBits a =
      if a.isConstant then .error (.badWidth 256) else .ok () := by
  rw [Build.checkExtension, h.width_eq, Build.checkWidth_ok (by decide), ok_bind]
  by_cases hconst : a.isConstant = true
  · rw [if_pos hconst, if_pos ⟨h.isSome_constValue? hconst, by decide⟩]
    rfl
  · rw [if_neg hconst, if_neg fun hboth => hconst (Term.isConstant_of_constValue? hboth.1)]
    rfl

theorem wideProduct_maxBits {extend : Term → Except Fault Term} {node : Term → Term}
    (hextend : ∀ t, extend t = (do Build.checkExtension Word.maxBits t; .ok (node t)))
    (hnode : ∀ t, (node t).width = t.width + Word.maxBits)
    (hl : l.HasSort (.bitVec Word.maxBits)) (hr : r.HasSort (.bitVec Word.maxBits)) :
    ((l.isConstant ∨ r.isConstant) ∧ wideProduct extend l r = .error (.badWidth 256)) ∨
      (¬(l.isConstant ∨ r.isConstant) ∧ ∃ t, wideProduct extend l r = .ok t ∧ t.width = 256) := by
  rw [wideProduct, hextend, hextend, checkExtension_maxBits hl, checkExtension_maxBits hr]
  by_cases hleft : l.isConstant = true
  · rw [if_pos hleft]
    exact .inl ⟨.inl hleft, rfl⟩
  · by_cases hright : r.isConstant = true
    · rw [if_neg hleft, if_pos hright]
      exact .inl ⟨.inr hright, rfl⟩
    · have hwidth : (node l).width = (node r).width := by
        rw [hnode, hnode, hl.width_eq, hr.width_eq]
      rw [if_neg hleft, if_neg hright]
      refine .inr ⟨not_or_intro hleft hright, _, Build.binary_ok hwidth, ?_⟩
      rw [Fold.width_binary, hnode, hl.width_eq]
      rfl

/-- A product at twice the widest word is a fault if an operand is constant,
and a term that is too wide if none is. -/
theorem apply_wideProduct (hf : family ∈ [.mullS, .mullU])
    (hl : l.HasSort (.bitVec Word.maxBits)) (hr : r.HasSort (.bitVec Word.maxBits)) :
    ((l.isConstant ∨ r.isConstant) ∧
      (sized family Word.maxBits).apply [l, r] = .error (.fault (.badWidth 256))) ∨
    (¬(l.isConstant ∨ r.isConstant) ∧
      ∃ t, (sized family Word.maxBits).apply [l, r] = .ok t ∧ t.width = 256) := by
  have hproduct : ∃ (extend : Term → Except Fault Term) (node : Term → Term),
      (∀ t, extend t = (do Build.checkExtension Word.maxBits t; .ok (node t))) ∧
      (∀ t, (node t).width = t.width + Word.maxBits) ∧
      (sized family Word.maxBits).apply [l, r] = Failure.ofFault (wideProduct extend l r) := by
    simp only [List.mem_cons, List.not_mem_nil, or_false] at hf
    rcases hf with rfl | rfl
    · exact ⟨_, _, fun _ => rfl, fun _ => Fold.width_signExt _, rfl⟩
    · exact ⟨_, _, fun _ => rfl, fun _ => Fold.width_zeroExt _, rfl⟩
  obtain ⟨extend, node, hextend, hnode, happly⟩ := hproduct
  rcases wideProduct_maxBits hextend hnode hl hr with ⟨hconst, hfault⟩ | ⟨hconst, t, ht, hwidth⟩
  · exact .inl ⟨hconst, by rw [happly, hfault]; rfl⟩
  · exact .inr ⟨hconst, t, by rw [happly, ht]; rfl, hwidth⟩

/-! ## Conversions and divisions -/

theorem apply_convert_of_not_fits {conversion : Conversion}
    (harity : (convert conversion source target).arity = 1)
    (hfits : ¬conversionFits conversion source target = true) :
    (convert conversion source target).apply [a] =
      .error (.unsupportedOperator (.convert conversion source target)) := by
  refine apply_of_not_fits trivial harity.symm ?_
  cases conversion with
  | join => cases harity
  | _ => exact congrArg Except.ok (Bool.eq_false_iff.2 hfits)

/-- A conversion takes operands of the widths that it declares, or is not
supported. -/
theorem convert_takes_or_unsupported {conversion : Conversion} (hs : source ∈ widths)
    (ht : target ∈ widths)
    (hargs : List.Forall₂ Fits (convert conversion source target).declared args) :
    (convert conversion source target).TakesArgs args ∨
      (convert conversion source target).apply args =
        .error (.unsupportedOperator (.convert conversion source target)) := by
  have hrange := inRange_of_mem hs
  have hone (hargs : List.Forall₂ Fits [some source] args) :
      ∃ a, args = [a] ∧ a.HasSort (.bitVec source) := by
    obtain ⟨a, rfl, ha⟩ := forall₂_one hargs
    exact ⟨a, rfl, ha.hasSort hrange⟩
  cases conversion with
  | unsigned | signed =>
    obtain ⟨a, rfl, ha⟩ := hone hargs
    by_cases hle : source ≤ target
    · exact .inl ⟨_, _, .extend (by decide) hrange (inRange_of_mem ht) hle, .cons ha .nil⟩
    · exact .inr (apply_convert_of_not_fits rfl (mt of_decide_eq_true hle))
  | low | high =>
    obtain ⟨a, rfl, ha⟩ := hone hargs
    by_cases hle : target ≤ source
    · exact .inl ⟨_, _, .cut (by decide) hrange (inRange_of_mem ht) hle, .cons ha .nil⟩
    · exact .inr (apply_convert_of_not_fits rfl (mt of_decide_eq_true hle))
  | join =>
    obtain ⟨l, r, rfl, hl, hr⟩ := forall₂_two hargs
    by_cases hsum : target = 2 * source
    · exact .inl ⟨_, _, .join hrange (inRange_of_mem ht) hsum,
        .cons (hl.hasSort hrange) (.cons (hr.hasSort hrange) .nil)⟩
    · have hsmall : source * 2 < Build.widthLimit :=
        (Nat.mul_le_mul_right 2 hrange.2).trans_lt (by decide : Word.maxBits * 2 < _)
      have hfits : joinFits source target = .ok false := by
        rw [joinFits, Build.checkWidth_ok hsmall, ok_bind, decide_eq_false (by omega)]
      exact .inr (apply_of_not_fits trivial rfl hfits)

/-- A division takes operands of the widths that it declares, or is not
supported, as long as its check does not overflow. -/
theorem divMod_takes_or_unsupported (signed : Bool) (hs : source ∈ widths)
    (hsmall : target * 2 < Build.widthLimit)
    (hargs : List.Forall₂ Fits (divMod signed source target).declared args) :
    (divMod signed source target).TakesArgs args ∨
      (divMod signed source target).apply args =
        .error (.unsupportedOperator (.divMod signed source target)) := by
  have hrange := inRange_of_mem hs
  obtain ⟨l, r, rfl, hl, hr⟩ := forall₂_two hargs
  by_cases hfits : 0 < target ∧ target * 2 = source
  · have htarget : InRange target := ⟨hfits.1, by have hle := hrange.2; omega⟩
    exact .inl ⟨_, _, .divMod signed hrange htarget (by omega),
      .cons (hl.hasSort hrange) (.cons (hr.hasSort htarget) .nil)⟩
  · have hcheck : divModFits source target = .ok false := by
      unfold divModFits
      by_cases hzero : target = 0
      · rw [if_pos hzero]
      · rw [if_neg hzero, Build.checkWidth_ok hsmall, ok_bind, decide_eq_false (by omega)]
    exact .inr (apply_of_not_fits trivial rfl hcheck)

/-- Twice the width of the divisor does not fit a width. -/
theorem apply_divMod_overflow (signed : Bool) (hlarge : Build.widthLimit ≤ target * 2) :
    (divMod signed source target).apply [l, r] = .error (.fault .widthOverflow) := by
  have hzero : target ≠ 0 := by
    rintro rfl
    exact absurd hlarge (by decide)
  have hcheck : divModFits source target = .error .widthOverflow := by
    rw [divModFits, if_neg hzero, Build.checkWidth, if_neg (Nat.not_lt.2 hlarge)]
    rfl
  exact apply_of_fault trivial rfl hcheck

/-! ## Operators of a name -/

/-- An operator has a result that is too wide, or a check that overflows. -/
def Overruns : Op → Prop
  | .sized family n => family ∈ [.mullS, .mullU] ∧ n = Word.maxBits
  | .divMod _ _ target => Build.widthLimit ≤ target * 2
  | _ => False

theorem le_of_mem_widths (h : n ∈ widths) (hne : n ≠ Word.maxBits) : n ≤ 64 := by
  have hall : ∀ n ∈ widths, n ≠ Word.maxBits → n ≤ 64 := by decide
  exact hall n h hne

theorem takes_or_unsupported (hnamed : op.HasNamedWidths) (hover : ¬op.Overruns)
    (hargs : List.Forall₂ Fits op.declared args) :
    op.TakesArgs args ∨ op.apply args = .error (.unsupportedOperator op) := by
  cases op with
  | sized family n =>
    exact .inl (takesArgs_sized (inRange_of_mem hnamed)
      (fun hmull => le_of_mem_widths hnamed fun hn => hover ⟨hmull, hn⟩) hargs)
  | convert => exact convert_takes_or_unsupported hnamed.1 hnamed.2 hargs
  | divMod signed => exact divMod_takes_or_unsupported signed hnamed.1 (Nat.not_le.1 hover) hargs
  | other => exact hnamed.elim

/-- An operator that was read from a name, on operands of the widths that it
declares, gives a word or is not supported, unless it overruns.  A product that
overruns is a fault if an operand is constant, and gives a term of 256 bits if
none is.  A division that overruns is a fault. -/
theorem apply_parsed (name : String) {args : List Term}
    (hargs : List.Forall₂ Fits (parse name).declared args) :
    (¬(parse name).Overruns →
      (∃ t v, (parse name).apply args = .ok t ∧ t.HasSort (.bitVec v)) ∨
        (parse name).apply args = .error (.unsupportedOperator (parse name))) ∧
    (∀ family n, parse name = .sized family n → (parse name).Overruns →
      ((∃ t ∈ args, t.isConstant) ∧
        (parse name).apply args = .error (.fault (.badWidth 256))) ∨
      ((∀ t ∈ args, ¬t.isConstant) ∧
        ∃ t, (parse name).apply args = .ok t ∧ t.width = 256)) ∧
    ∀ signed source target, parse name = .divMod signed source target → (parse name).Overruns →
      (parse name).apply args = .error (.fault .widthOverflow) := by
  refine ⟨fun hover => ?_, fun family n hop hover => ?_, fun signed source target hop hover => ?_⟩
  · rcases parse_eq_other_or_hasNamedWidths name with hother | hnamed
    · rw [hother, apply]
      exact .inr rfl
    · exact (takes_or_unsupported hnamed hover hargs).imp_left TakesArgs.apply
  · rw [hop] at hargs hover ⊢
    obtain ⟨hf, rfl⟩ := hover
    have hdeclared : (sized family Word.maxBits).declared =
        [some Word.maxBits, some Word.maxBits] := by
      simp only [List.mem_cons, List.not_mem_nil, or_false] at hf
      rcases hf with rfl | rfl <;> rfl
    rw [hdeclared] at hargs
    obtain ⟨l, r, rfl, hl, hr⟩ := forall₂_two hargs
    have hwidest : InRange Word.maxBits := ⟨by decide, Nat.le_refl _⟩
    have hproduct := apply_wideProduct hf (hl.hasSort hwidest) (hr.hasSort hwidest)
    simpa only [List.exists_mem_cons_iff, List.forall_mem_cons, not_or, List.not_mem_nil,
      false_and, exists_false, or_false, false_imp_iff, forall_true_iff, and_true] using hproduct
  · rw [hop] at hargs hover ⊢
    obtain ⟨l, r, rfl, -⟩ := forall₂_two hargs
    exact apply_divMod_overflow signed hover

/-- A division whose divisor is declared to have a width past which doubling
overflows. -/
theorem apply_parsed_divMod :
    (parse "Iop_DivModU64to2147483648").apply [.var "x" 64, .var "y" 32] =
      .error (.fault .widthOverflow) := by
  have hop : parse "Iop_DivModU64to2147483648" = .divMod false 64 2147483648 := by decide
  have hargs : List.Forall₂ Fits (parse "Iop_DivModU64to2147483648").declared
      [.var "x" 64, .var "y" 32] := by
    rw [hop]
    refine .cons ⟨64, .var _ (by decide) (by decide), fun n hn _ => Option.some.inj hn⟩
      (.cons ⟨32, .var _ (by decide) (by decide), fun n hn hrange => ?_⟩ .nil)
    obtain rfl := Option.some.inj hn
    exact absurd hrange.2 (by decide)
  have hover : (parse "Iop_DivModU64to2147483648").Overruns := by
    rw [hop, Overruns]
    decide
  exact (apply_parsed _ hargs).2.2 false 64 2147483648 hop hover

/-- A product of two variables of the widest word is wider than that, so not
every operator gives a word or is not supported. -/
theorem not_always_limited :
    ¬∀ (name : String) (args : List Term), List.Forall₂ Fits (parse name).declared args →
      (∃ t v, (parse name).apply args = .ok t ∧ t.HasSort (.bitVec v)) ∨
        (parse name).apply args = .error (.unsupportedOperator (parse name)) := by
  intro hlimited
  have hop : parse "Iop_MullU128" = .sized .mullU Word.maxBits := by decide
  have hvar (name : String) : (Term.var name 128).HasSort (.bitVec Word.maxBits) :=
    .var _ (by decide) (by decide)
  have hcase := hlimited "Iop_MullU128" [.var "x" 128, .var "y" 128]
  rw [hop] at hcase
  have hmember : Family.mullU ∈ [.mullS, .mullU] := by decide
  obtain ⟨hconst, -⟩ | ⟨-, t, ht, hwidth⟩ := apply_wideProduct hmember (hvar "x") (hvar "y")
  · rcases hconst with hconst | hconst <;> cases hconst
  · rw [ht] at hcase
    rcases hcase (.cons ⟨128, hvar "x", fun n hn _ => Option.some.inj hn⟩
      (.cons ⟨128, hvar "y", fun n hn _ => Option.some.inj hn⟩ .nil)) with
      ⟨t', v, ht', hsort⟩ | hunsupported
    · cases ht'
      have hle := hsort.width_le
      rw [← hsort.width_eq, hwidth] at hle
      exact absurd hle (by decide)
    · cases hunsupported

end SymLift.IR.Op
