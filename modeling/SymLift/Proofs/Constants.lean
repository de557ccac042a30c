import SymLift.Proofs.FoldClosed
import SymLift.Proofs.Valuation

/-!
# Constants stay constants

A folding constructor whose operands are constants gives a constant.  This
module states it once for each constructor, for constant bit-vectors
(`constValue?`) and for constant truth values (`boolValue?`).

* `Value.toTerm` is the constant that holds a value, and `Term.known` puts
  the value of a term under a model in its place.
* `Denotes.eq_const` and `Decides.eq_bool`: a constant is the constant of its
  value.
* `Fold.isSome_constValue?_lit` to `Fold.isSome_boolValue?_ite`: constants
  stay constants.
* `FoldClosed.constant` says it of all that is built from constants.
* `Fold.compare_of_constValue?`: a comparison with a constant is not folded
  where the other operand is none.
-/

namespace SymLift

/-- The constant that holds a value. -/
def Value.toTerm : Value → Term
  | .bool value => .bool value
  | .word value width => .const value width

namespace Term

/-- The value of a term under a model as a constant.  A term without a value
stays as it is. -/
def known (m : Model) (t : Term) : Term :=
  match t.eval m with
  | .ok value => value.toTerm
  | .error _ => t

variable {m : Model} {t : Term} {w : Nat} {x : BitVec w} {b : Bool}

theorem Denotes.known_eq (h : t.Denotes m x) : t.known m = .const x.toNat w := by
  rw [known, h.eval_eq]
  rfl

/-- A constant is the constant of its value. -/
theorem Denotes.eq_const (h : t.Denotes m x) (hc : t.constValue?.isSome) :
    t = .const x.toNat w := by
  obtain ⟨value, hvalue⟩ := Option.isSome_iff_exists.1 hc
  rw [constValue?_eq_some hvalue, h.width_eq, h.constValue?_eq hvalue]

theorem Decides.eq_bool (h : t.Decides m b) (hc : t.boolValue?.isSome) : t = .bool b := by
  obtain ⟨value, hvalue⟩ := Option.isSome_iff_exists.1 hc
  rw [boolValue?_eq_some hvalue, h.boolValue?_eq hvalue]

/-! ## Constants of a sort -/

theorem HasSort.isSome_constValue? (h : t.HasSort (.bitVec w)) (hc : t.isConstant) :
    t.constValue?.isSome := by
  cases h with
  | const => rfl
  | _ => cases hc

theorem HasSort.isSome_boolValue? (h : t.HasSort .bool) (hc : t.isConstant) :
    t.boolValue?.isSome := by
  cases h with
  | bool => rfl
  | _ => cases hc

theorem isConstant_of_constValue? (h : t.constValue?.isSome) : t.isConstant := by
  cases t with
  | const => rfl
  | _ => cases h

theorem isConstant_of_boolValue? (h : t.boolValue?.isSome) : t.isConstant := by
  cases t with
  | bool => rfl
  | _ => cases h

end Term

namespace Fold

variable {arg left right high low cond thenArm elseArm : Term}

/-! ## Bit-vectors -/

theorem isSome_constValue?_lit (value width : Nat) : (lit value width).constValue?.isSome := rfl

theorem isSome_constValue?_unary (op : UnaryOp) (h : arg.constValue?.isSome) :
    (unary op arg).constValue?.isSome := by
  obtain ⟨value, hvalue⟩ := Option.isSome_iff_exists.1 h
  rw [unary, hvalue]
  rfl

theorem isSome_constValue?_binary (op : BinaryOp) (hl : left.constValue?.isSome)
    (hr : right.constValue?.isSome) : (binary op left right).constValue?.isSome := by
  obtain ⟨l, hl⟩ := Option.isSome_iff_exists.1 hl
  obtain ⟨r, hr⟩ := Option.isSome_iff_exists.1 hr
  rw [binary, hl, hr]
  rfl

theorem isSome_constValue?_extract (hi lo : Nat) (h : arg.constValue?.isSome) :
    (extract hi lo arg).constValue?.isSome := by
  obtain ⟨value, hvalue⟩ := Option.isSome_iff_exists.1 h
  rw [extract, hvalue]
  split
  · exact h
  · rfl

theorem isSome_constValue?_concat (hh : high.constValue?.isSome) (hl : low.constValue?.isSome) :
    (concat high low).constValue?.isSome := by
  obtain ⟨h, hh⟩ := Option.isSome_iff_exists.1 hh
  obtain ⟨l, hl⟩ := Option.isSome_iff_exists.1 hl
  rw [concat, hh, hl]
  rfl

theorem isSome_constValue?_zeroExt (count : Nat) (h : arg.constValue?.isSome) :
    (zeroExt count arg).constValue?.isSome := by
  obtain ⟨value, hvalue⟩ := Option.isSome_iff_exists.1 h
  rw [zeroExt, hvalue]
  split
  · exact h
  · rfl

theorem isSome_constValue?_signExt (count : Nat) (h : arg.constValue?.isSome) :
    (signExt count arg).constValue?.isSome := by
  obtain ⟨value, hvalue⟩ := Option.isSome_iff_exists.1 h
  rw [signExt, hvalue]
  split
  · exact h
  · rfl

/-! ## Booleans -/

theorem isSome_boolValue?_compare (op : CompareOp) (hl : left.constValue?.isSome)
    (hr : right.constValue?.isSome) : (compare op left right).boolValue?.isSome := by
  obtain ⟨l, hl⟩ := Option.isSome_iff_exists.1 hl
  obtain ⟨r, hr⟩ := Option.isSome_iff_exists.1 hr
  rw [compare, hl, hr]
  rfl

theorem isSome_boolValue?_not (h : arg.boolValue?.isSome) : (not arg).boolValue?.isSome := by
  obtain ⟨value, hvalue⟩ := Option.isSome_iff_exists.1 h
  rw [Term.boolValue?_eq_some hvalue]
  rfl

/-- A connective of constants keeps no term. -/
theorem isSome_boolValue?_connect (neutral : Bool) (node : List Term → Term) {terms : List Term}
    (h : ∀ t ∈ terms, t.boolValue?.isSome) : (connect neutral node terms).boolValue?.isSome := by
  have hopen {kept : List Term} (hkept : remaining neutral terms = some kept) {t : Term}
      (ht : t ∈ kept) : False := by
    obtain ⟨hmem, hvalue⟩ := (mem_remaining_iff hkept).1 ht
    have hsome := h t hmem
    rw [hvalue] at hsome
    cases hsome
  cases hkept : remaining neutral terms with
  | none =>
    rw [connect, hkept]
    rfl
  | some kept =>
    obtain rfl := List.eq_nil_iff_forall_not_mem.2 fun t => hopen hkept
    rw [connect, hkept]
    rfl

/-- A connective is the neutral constant only if all of its terms are. -/
theorem connect_eq_neutral_iff {neutral : Bool} {node : List Term → Term} {terms : List Term}
    (hnode : ∀ kept, node kept ≠ .bool neutral) :
    connect neutral node terms = .bool neutral ↔ ∀ t ∈ terms, t = .bool neutral := by
  constructor
  · unfold connect
    split
    · intro h
      cases neutral <;> cases h
    · rename_i hkept
      exact fun _ t ht => (mem_or_neutral_of_remaining hkept t ht).resolve_left List.not_mem_nil
    · rename_i u hkept
      rintro rfl t ht
      exact (mem_or_neutral_of_remaining hkept t ht).elim List.mem_singleton.1 id
    · exact fun h => absurd h (hnode _)
  · intro hall
    have hkept : remaining neutral terms = some [] := by
      refine remaining_eq_some_iff.2 ⟨fun hmem => ?_, List.filter_eq_nil_iff.2 fun t ht => ?_⟩
      · exact Bool.not_ne_self neutral (Term.bool.inj (hall _ hmem))
      · rw [hall t ht]
        exact Bool.false_ne_true
    rw [connect, hkept]

/-- A comparison of a term that is no constant with a constant stays. -/
theorem compare_of_constValue? (op : CompareOp) (hl : left.constValue? = none)
    (hr : right.constValue?.isSome) : compare op left right = .compare op left right := by
  have hne : ¬(op = .eq ∧ left = right) := by
    rintro ⟨-, rfl⟩
    rw [hl] at hr
    cases hr
  rw [compare, hl]
  dsimp only
  rw [if_neg hne]

/-! ## If-then-else -/

/-- An if-then-else with a known condition is one of its arms. -/
theorem ite_of_boolValue? {P : Term → Prop} (hc : cond.boolValue?.isSome) (ht : P thenArm)
    (he : P elseArm) : P (ite cond thenArm elseArm) := by
  obtain ⟨value, hvalue⟩ := Option.isSome_iff_exists.1 hc
  rw [ite, hvalue]
  cases value with
  | true => exact ht
  | false => exact he

theorem isSome_constValue?_ite (hc : cond.boolValue?.isSome) (ht : thenArm.constValue?.isSome)
    (he : elseArm.constValue?.isSome) : (ite cond thenArm elseArm).constValue?.isSome :=
  ite_of_boolValue? (P := fun t => t.constValue?.isSome) hc ht he

theorem isSome_boolValue?_ite (hc : cond.boolValue?.isSome) (ht : thenArm.boolValue?.isSome)
    (he : elseArm.boolValue?.isSome) : (ite cond thenArm elseArm).boolValue?.isSome :=
  ite_of_boolValue? (P := fun t => t.boolValue?.isSome) hc ht he

end Fold

/-- The folding constructors keep constants. -/
def FoldClosed.constant : FoldClosed where
  word t := t.constValue?.isSome
  truth t := t.boolValue?.isSome
  lit := Fold.isSome_constValue?_lit
  unary := Fold.isSome_constValue?_unary
  binary := Fold.isSome_constValue?_binary
  extract := Fold.isSome_constValue?_extract
  concat := Fold.isSome_constValue?_concat
  zeroExt := Fold.isSome_constValue?_zeroExt
  signExt := Fold.isSome_constValue?_signExt
  ite := Fold.isSome_constValue?_ite
  compare := Fold.isSome_boolValue?_compare
  not := Fold.isSome_boolValue?_not
  conj := Fold.isSome_boolValue?_connect true .conj
  disj := Fold.isSome_boolValue?_connect false .disj
  truthIte := Fold.isSome_boolValue?_ite

end SymLift
