import Mathlib.Data.List.Basic
import SymLift.IR.Apply
import SymLift.Proofs.OperatorGrammar
import SymLift.Proofs.Results

/-!
# What an operator checks

Before an operator builds a term it counts its operands, and then it looks
at its own widths.

* `FitsWidths` says which widths fit each other, and `checkWidths` is the
  check.
* `exists_apply_eq`: the checks come before the term is built.
  `apply_of_length_ne`, `apply_of_not_fits` and `apply_of_fault` say what an
  operator does where a check fails.
* `fits_of_apply`: an operator that gives a term passes both checks.
* `Refuses` lists what can be wrong with an operator, and `refuses_of_apply`
  says that an operator that gives no term has a fault, or that this is wrong.
-/

namespace SymLift.IR.Op

variable {op : Op} {args : List Term} {t : Term} {f : Failure}

/-- The widths of an operator fit each other. -/
def FitsWidths : Op → Prop
  | .sized .. => True
  | .convert .unsigned source target | .convert .signed source target => source ≤ target
  | .convert .low source target | .convert .high source target => target ≤ source
  | .convert .join source target => source * 2 = target
  | .divMod _ source target => 0 < target ∧ target * 2 = source
  | .other _ => False

theorem arity_cases (op : Op) : op.arity = 1 ∨ op.arity = 2 := by
  cases op with
  | sized family => cases family <;> simp [arity]
  | convert conversion => cases conversion <;> simp [arity]
  | divMod | other => exact .inr rfl

/-- The check of the widths of an operator. -/
def checkWidths : Op → Except Fault Bool
  | .sized .. => .ok true
  | .convert .join source target => joinFits source target
  | .convert conversion source target => .ok (conversionFits conversion source target)
  | .divMod _ source target => divModFits source target
  | .other _ => .ok false

theorem checkWidths_iff {b : Bool} (h : op.checkWidths = .ok b) : b = true ↔ op.FitsWidths := by
  cases op with
  | sized => simp [← Except.ok.inj h, FitsWidths]
  | convert conversion source target =>
    cases conversion with
    | join =>
      obtain ⟨_, -, h⟩ := bind_eq_ok_iff.1 h
      simp [← Except.ok.inj h, FitsWidths]
    | _ => simp [← Except.ok.inj h, FitsWidths, conversionFits]
  | divMod signed source target =>
    rw [checkWidths, divModFits] at h
    by_cases hzero : target = 0
    · rw [if_pos hzero] at h
      simp [← Except.ok.inj h, FitsWidths, hzero]
    · rw [if_neg hzero] at h
      obtain ⟨_, -, h⟩ := bind_eq_ok_iff.1 h
      simp [← Except.ok.inj h, FitsWidths, Nat.pos_of_ne_zero hzero]
  | other => simp [← Except.ok.inj h, FitsWidths]

/-- The number of operands is looked at first. -/
theorem apply_of_length_ne (hmodeled : op.Modeled) (h : args.length ≠ op.arity) :
    op.apply args = .error (.operatorArity op op.arity args.length) := by
  unfold apply
  split
  · exact hmodeled.elim
  · exact if_neg (Ne.symm h)
  · exact if_neg (Ne.symm h)
  · exact absurd rfl h
  · exact if_neg (Ne.symm h)
  · exact absurd rfl h
  · rfl

/-- Then the widths are checked, and then a term is built. -/
theorem exists_apply_eq (hmodeled : op.Modeled) (h : args.length = op.arity) :
    ∃ built : Except Fault Term, op.apply args = (liftM op.checkWidths >>= fun fits =>
      if fits then Failure.ofFault built else .error (.unsupportedOperator op)) := by
  rcases arity_cases op with hone | htwo
  · obtain ⟨arg, rfl⟩ := List.length_eq_one_iff.1 (h.trans hone)
    cases op with
    | sized => exact ⟨_, by rw [apply, if_pos hone]; rfl⟩
    | convert conversion =>
      cases conversion with
      | join => cases hone
      | _ => exact ⟨_, by rw [apply, if_pos hone]; rfl⟩
    | divMod => cases hone
    | other => exact hmodeled.elim
  · obtain ⟨left, right, rfl⟩ := List.length_eq_two.1 (h.trans htwo)
    cases op with
    | sized => exact ⟨_, by rw [apply, if_pos htwo]; rfl⟩
    | convert conversion =>
      cases conversion with
      | join => exact ⟨_, rfl⟩
      | _ => cases htwo
    | divMod => exact ⟨_, rfl⟩
    | other => exact hmodeled.elim

theorem apply_of_not_fits (hmodeled : op.Modeled) (h : args.length = op.arity)
    (hfits : op.checkWidths = .ok false) : op.apply args = .error (.unsupportedOperator op) := by
  obtain ⟨built, happly⟩ := exists_apply_eq hmodeled h
  rw [happly, hfits]
  rfl

theorem apply_of_fault {cause : Fault} (hmodeled : op.Modeled) (h : args.length = op.arity)
    (hfault : op.checkWidths = .error cause) : op.apply args = .error (.fault cause) := by
  obtain ⟨built, happly⟩ := exists_apply_eq hmodeled h
  rw [happly, hfault]
  rfl

/-- An operator that gives a term takes so many operands, and its widths fit
each other. -/
theorem fits_of_apply (h : op.apply args = .ok t) : op.arity = args.length ∧ op.FitsWidths := by
  by_cases hmodeled : op.Modeled
  · by_cases hcount : args.length = op.arity
    · obtain ⟨built, happly⟩ := exists_apply_eq hmodeled hcount
      obtain ⟨fits, hfits, h⟩ := fault_bind_eq_ok_iff.1 (happly.symm.trans h)
      split at h
      · rename_i htrue
        exact ⟨hcount.symm, (checkWidths_iff hfits).1 htrue⟩
      · cases h
    · rw [apply_of_length_ne hmodeled hcount] at h
      cases h
  · cases op with
    | other => cases h
    | _ => exact absurd trivial hmodeled

/-- What is wrong with an operator on so many operands.  Their number is
looked at before the widths. -/
inductive Refuses : Op → Nat → Failure → Prop where
  | unknown (name : String) (count : Nat) :
    Refuses (.other name) count (.unsupportedOperator (.other name))
  | operandCount {op : Op} {count : Nat} (hmodeled : op.Modeled) (hcount : count ≠ op.arity) :
    Refuses op count (.operatorArity op op.arity count)
  | widths {op : Op} (hmodeled : op.Modeled) (hwidths : ¬op.FitsWidths) :
    Refuses op op.arity (.unsupportedOperator op)

/-- An operator that gives no term has a fault, or is refused. -/
theorem refuses_of_apply (h : op.apply args = .error f) :
    (∃ cause, f = .fault cause) ∨ op.Refuses args.length f := by
  by_cases hmodeled : op.Modeled
  · by_cases hcount : args.length = op.arity
    · cases hfits : op.checkWidths with
      | error cause =>
        rw [apply_of_fault hmodeled hcount hfits] at h
        exact .inl ⟨cause, (Except.error.inj h).symm⟩
      | ok fits =>
        cases fits with
        | true =>
          obtain ⟨built, happly⟩ := exists_apply_eq hmodeled hcount
          rw [happly, hfits] at h
          exact .inl (OnlyFaults.ofFault built f h)
        | false =>
          rw [apply_of_not_fits hmodeled hcount hfits] at h
          cases h
          have hwidths : ¬op.FitsWidths := mt (checkWidths_iff hfits).2 Bool.false_ne_true
          exact .inr (hcount ▸ .widths hmodeled hwidths)
    · rw [apply_of_length_ne hmodeled hcount] at h
      cases h
      exact .inr (.operandCount hmodeled hcount)
  · cases op with
    | other name =>
      cases h
      exact .inr (.unknown name args.length)
    | _ => exact absurd trivial hmodeled

end SymLift.IR.Op
