import SymLift.Proofs.Constants
import SymLift.Proofs.Helpers

/-!
# Helper calls on known arguments

A helper that is called on constants decodes the number of the operation and
the condition code itself.  A helper that is called on other terms builds a
choice over all of them, and says in its constraints what it relies on.  This
module shows that the two agree under every model.

* `Helper.outcome` is what a call does to numbers, failures included.
* `call_of_constants`: a call on constants is the outcome, as a constant, and
  relies on nothing.
* `outcomeWords_of_needs` and `outcomeWords_of_error`: a call on words whose
  constraints are true has the value of the outcome, and a call that fails
  does so with the failure of the outcome.
* `codeOutOfRange_or_unsupported`: where a constraint is not true, the
  condition code is out of range or the outcome is a failure.
* `call_agrees_with_known`: the three facts about a call and the call on what
  its arguments evaluate to.
-/

namespace SymLift

namespace Helper

open Fold Guest

variable {h : Helper} {m : Model} {args : List Term} {value ccOp : Term} {needs : List Term}
  {values : List Bits} {words : List (BitVec h.guest.wordBits)} {cause : Failure}

/-! ## Outcomes -/

/-- The argument that holds the number of the operation, if there are as many
arguments as the helper takes. -/
def operation? {α : Type} (h : Helper) (args : List α) : Option α :=
  match h.query, args with
  | .condition, [_, ccOp, _, _, _] => some ccOp
  | .flags, [ccOp, _, _, _] | .carry, [ccOp, _, _, _] => some ccOp
  | _, _ => none

/-- What a helper does to words: the word that it computes, or the reason why
there is none. -/
def outcomeWords (h : Helper) (words : List (BitVec h.guest.wordBits)) :
    Except Failure (BitVec h.guest.wordBits) :=
  match h.operation? words, h.computeWords words with
  | none, _ => .error (.callHelperArity h h.arity words.length)
  | some ccOp, none => .error (.unsupportedFlagThunk h ccOp.toNat)
  | some _, some x => .ok x

/-- What a helper does to numbers, which are cut or extended to one word. -/
def outcome (h : Helper) (values : List Bits) : Except Failure (BitVec h.guest.wordBits) :=
  h.outcomeWords (values.map fun c => c.value.setWidth h.guest.wordBits)

section Operation

variable {α β : Type} {R : α → β → Prop} {xs : List α} {ys : List β} {x : α}

theorem operation?_of_forall₂ (hrel : List.Forall₂ R xs ys) (hx : h.operation? xs = some x) :
    ∃ y, h.operation? ys = some y ∧ R x y := by
  unfold operation? at hx
  split at hx
  · rename_i hquery
    cases hx
    obtain ⟨_, rest, -, hrest, rfl⟩ := List.forall₂_cons_left_iff.1 hrel
    obtain ⟨y, _, _, _, rfl, hy, -⟩ := forall₂_four hrest
    exact ⟨y, by simp only [operation?, hquery], hy⟩
  · rename_i hquery
    cases hx
    obtain ⟨y, _, _, _, rfl, hy, -⟩ := forall₂_four hrel
    exact ⟨y, by simp only [operation?, hquery], hy⟩
  · rename_i hquery
    cases hx
    obtain ⟨y, _, _, _, rfl, hy, -⟩ := forall₂_four hrel
    exact ⟨y, by simp only [operation?, hquery], hy⟩
  · cases hx

theorem operation?_eq_none_of_forall₂ (hrel : List.Forall₂ R xs ys)
    (hx : h.operation? xs = none) : h.operation? ys = none := by
  rw [Option.eq_none_iff_forall_ne_some]
  intro y hy
  obtain ⟨x, hsome, -⟩ := operation?_of_forall₂ (List.Forall₂.flip hrel) hy
  rw [hx] at hsome
  cases hsome

end Operation

theorem outcomeWords_of_compute {x : BitVec h.guest.wordBits} (hx : h.computeWords words = some x) :
    h.outcomeWords words = .ok x := by
  have hop : h.operation? words ≠ none := by
    unfold computeWords at hx
    split at hx <;> simp_all [operation?]
  obtain ⟨k, hop⟩ := Option.ne_none_iff_exists'.1 hop
  rw [outcomeWords, hop, hx]

theorem outcomeWords_of_not_decoded {k : BitVec h.guest.wordBits}
    (hop : h.operation? words = some k) (hnone : h.guest.decodeThunk? k.toNat = none) :
    h.outcomeWords words = .error (.unsupportedFlagThunk h k.toNat) := by
  have hflags : ∀ dep1 dep2 ndep, h.guest.thunkFlags? k dep1 dep2 ndep = none := by
    intro dep1 dep2 ndep
    rw [thunkFlags?, hnone]
    rfl
  have hcompute : h.computeWords words = none := by
    unfold operation? at hop
    split at hop <;> cases hop <;> simp only [computeWords, *, Option.map_none]
  rw [outcomeWords, hop, hcompute]

/-! ## Calls on words -/

/-- A call on words that succeeds chooses by the number of the operation. -/
theorem operation_of_callWords (hcall : h.callWords args = .ok (value, needs)) :
    ∃ ccOp f result opNeeds, h.operation? args = some ccOp ∧
      h.overThunkOp ccOp f = .ok (result, opNeeds) ∧
      (needs = opNeeds ∨ ∃ code rest, h.query = .condition ∧ args = code :: rest ∧
        needs = opNeeds ++ codeConstraints code) := by
  rcases callWords_cases hcall with
    ⟨code, ccOp, dep1, dep2, ndep, cond, opNeeds, hquery, rfl, hop, -, rfl⟩ |
    ⟨ccOp, dep1, dep2, ndep, hquery, rfl, hop⟩ | ⟨ccOp, dep1, dep2, ndep, hquery, rfl, hop⟩
  · exact ⟨ccOp, _, cond, opNeeds, by simp only [operation?, hquery], hop,
      .inr ⟨code, _, hquery, rfl, rfl⟩⟩
  · exact ⟨ccOp, _, value, needs, by simp only [operation?, hquery], hop, .inl rfl⟩
  · exact ⟨ccOp, _, value, needs, by simp only [operation?, hquery], hop, .inl rfl⟩

/-- A call on words fails at the operation, or for the number of its
arguments. -/
theorem callWords_error_cases (hcall : h.callWords args = .error cause) :
    (∃ ccOp f, h.operation? args = some ccOp ∧ h.overThunkOp ccOp f = .error cause) ∨
    (h.operation? args = none ∧ cause = .callHelperArity h h.arity args.length) := by
  unfold callWords at hcall
  split at hcall
  · rename_i code ccOp dep1 dep2 ndep hquery
    cases hop : h.overThunkOp ccOp
        (fun op width => (FlagBits.ofThunk op width dep1 dep2 ndep).condition code) with
    | ok _ =>
      rw [hop] at hcall
      cases hcall
    | error _ =>
      rw [hop] at hcall
      cases hcall
      exact .inl ⟨ccOp, _, by simp only [operation?, hquery], hop⟩
  · rename_i ccOp dep1 dep2 ndep hquery
    exact .inl ⟨ccOp, _, by simp only [operation?, hquery], hcall⟩
  · rename_i ccOp dep1 dep2 ndep hquery
    exact .inl ⟨ccOp, _, by simp only [operation?, hquery], hcall⟩
  · rename_i hcondition hflags hcarry
    cases hcall
    refine .inr ⟨?_, rfl⟩
    unfold operation?
    split
    · rename_i hquery
      exact (hcondition _ _ _ _ _ hquery rfl).elim
    · rename_i hquery
      exact (hflags _ _ _ _ hquery rfl).elim
    · rename_i hquery
      exact (hcarry _ _ _ _ hquery rfl).elim
    · rfl

theorem of_overThunkOp_error {f : ThunkOp → Nat → Term} {k : BitVec h.guest.wordBits}
    (hop : ccOp.Denotes m k) (hcall : h.overThunkOp ccOp f = .error cause) :
    h.guest.decodeThunk? k.toNat = none ∧ cause = .unsupportedFlagThunk h k.toNat := by
  rw [overThunkOp, hop.addressValue?_eq (wordBits_bounds _).2] at hcall
  by_cases hconst : ccOp.isConstant = true
  · rw [if_pos hconst] at hcall
    dsimp only at hcall
    split at hcall
    · cases hcall
    · rename_i hnone
      cases hcall
      exact ⟨hnone, rfl⟩
  · rw [if_neg hconst] at hcall
    cases hcall

theorem needs_of_overThunkOp_constant {f : ThunkOp → Nat → Term} {k : BitVec h.guest.wordBits}
    (hop : ccOp.Denotes m k) (hconst : ccOp.constValue?.isSome)
    (hcall : h.overThunkOp ccOp f = .ok (value, needs)) : needs = [] := by
  rw [overThunkOp, hop.addressValue?_eq (wordBits_bounds _).2,
    if_pos (Term.isConstant_of_constValue? hconst)] at hcall
  dsimp only at hcall
  split at hcall
  · cases hcall
    rfl
  · cases hcall

section Words

variable (hargs : List.Forall₂ (fun t (x : BitVec h.guest.wordBits) => t.Denotes m x) args words)
include hargs

/-- A call on words that fails does so with the failure of the outcome. -/
theorem outcomeWords_of_error (hcall : h.callWords args = .error cause) :
    h.outcomeWords words = .error cause := by
  rcases callWords_error_cases hcall with ⟨ccOp, f, hop, hover⟩ | ⟨hop, rfl⟩
  · obtain ⟨k, hopWords, hk⟩ := operation?_of_forall₂ hargs hop
    obtain ⟨hnone, rfl⟩ := of_overThunkOp_error hk hover
    exact outcomeWords_of_not_decoded hopWords hnone
  · rw [outcomeWords, operation?_eq_none_of_forall₂ hargs hop, hargs.length_eq]

/-- A call on words whose constraints are true has the value of the
outcome. -/
theorem outcomeWords_of_needs (hcall : h.callWords args = .ok (value, needs))
    (hneeds : ∀ need ∈ needs, need.Decides m true) :
    ∃ x, h.outcomeWords words = .ok x ∧ value.Denotes m x := by
  have hwidths : ∀ t ∈ args, t.width = h.guest.wordBits := by
    clear hcall hneeds
    induction hargs with
    | nil => exact List.forall_mem_nil _
    | cons hfirst _ ih => exact List.forall_mem_cons.2 ⟨hfirst.width_eq, ih⟩
  obtain ⟨x, hx, hcompute⟩ := exists_denotes_callWords hargs hcall
  exact ⟨x, outcomeWords_of_compute (hcompute (modeledWords_of_callWords hwidths hcall hneeds)), hx⟩

/-- Where a constraint of a call is not true, the condition code is out of
range or the operation is not modeled. -/
theorem sixteen_le_or_unsupported (hcall : h.callWords args = .ok (value, needs))
    (hneeds : ¬∀ need ∈ needs, need.Decides m true) :
    (∃ code rest, h.query = .condition ∧ words = code :: rest ∧ 16 ≤ code.toNat) ∨
      ∃ op, h.outcomeWords words = .error (.unsupportedFlagThunk h op) := by
  obtain ⟨ccOp, f, result, opNeeds, hop, hover, hcases⟩ := operation_of_callWords hcall
  obtain ⟨k, hopWords, hk⟩ := operation?_of_forall₂ hargs hop
  cases hdecode : h.guest.decodeThunk? k.toNat with
  | none => exact .inr ⟨_, outcomeWords_of_not_decoded hopWords hdecode⟩
  | some _ =>
    have hopNeeds : ∀ need ∈ opNeeds, need.Decides m true := by
      have htruth := decides_overThunkOp hk hover
      rwa [hdecode] at htruth
    rcases hcases with rfl | ⟨code, rest, hquery, rfl, rfl⟩
    · exact absurd hopNeeds hneeds
    · obtain ⟨c, words', hcode, -, rfl⟩ := List.forall₂_cons_left_iff.1 hargs
      refine .inl ⟨c, words', hquery, rfl, ?_⟩
      by_contra hlt
      refine hneeds (List.forall_mem_append.2 ⟨hopNeeds, ?_⟩)
      have htruth := decides_codeConstraints hcode
      rwa [decide_eq_true (Nat.not_le.1 hlt)] at htruth

/-- A call on constants gives a constant, and relies on nothing. -/
theorem of_callWords_constants (hconst : ∀ t ∈ args, t.constValue?.isSome)
    (hcall : h.callWords args = .ok (value, needs)) :
    value.constValue?.isSome ∧ needs = [] := by
  refine ⟨(FoldClosed.constant.of_callWords hconst hcall).1, ?_⟩
  obtain ⟨ccOp, f, result, opNeeds, hop, hover, hcases⟩ := operation_of_callWords hcall
  obtain ⟨k, -, hk⟩ := operation?_of_forall₂ hargs hop
  obtain ⟨-, -, hccOp⟩ := operation?_of_forall₂ (R := fun t (_ : Term) => t.constValue?.isSome)
    (List.forall₂_same.2 hconst) hop
  have hopNeeds : opNeeds = [] := needs_of_overThunkOp_constant hk hccOp hover
  rcases hcases with rfl | ⟨code, rest, -, rfl, rfl⟩
  · exact hopNeeds
  · have hcode := Term.isConstant_of_constValue? (hconst code List.mem_cons_self)
    rw [hopNeeds, codeConstraints, if_pos hcode]
    rfl

end Words

/-! ## Calls -/

/-- A call on constants is the outcome, as a constant. -/
theorem call_of_constants (hargs : List.Forall₂ (Term.Evaluates m) args values)
    (hconst : ∀ t ∈ args, t.constValue?.isSome) :
    h.call args = (h.outcome values).map fun x => (.const x.toNat h.guest.wordBits, []) := by
  have hwords := denotes_words h hargs
  cases hcall : h.callWords (args.map (resize h.guest.wordBits)) with
  | error cause => rw [call_eq, hcall, outcome, outcomeWords_of_error hwords hcall, Except.map]
  | ok result =>
    obtain ⟨value, needs⟩ := result
    have hconstWords : ∀ t ∈ args.map (resize h.guest.wordBits), t.constValue?.isSome := by
      intro t ht
      obtain ⟨arg, harg, rfl⟩ := List.mem_map.1 ht
      exact FoldClosed.constant.resize _ (hconst arg harg)
    obtain ⟨hvalue, rfl⟩ := of_callWords_constants hwords hconstWords hcall
    obtain ⟨x, hx, hdenotes⟩ := outcomeWords_of_needs hwords hcall (List.forall_mem_nil _)
    rw [call_eq, hcall, outcome, hx, Except.map, hdenotes.eq_const hvalue]

/-- The condition code among the arguments evaluates to sixteen or more, cut
to one word. -/
def CodeOutOfRange (h : Helper) (m : Model) (args : List Term) : Prop :=
  ∃ code rest value width, h.query = .condition ∧ args = code :: rest ∧
    code.eval m = .ok (.word value width) ∧ 16 ≤ value % 2 ^ h.guest.wordBits

theorem codeOutOfRange_or_unsupported (hargs : List.Forall₂ (Term.Evaluates m) args values)
    (hcall : h.call args = .ok (value, needs)) (hneeds : ¬∀ need ∈ needs, need.Decides m true) :
    h.CodeOutOfRange m args ∨ ∃ op, h.outcome values = .error (.unsupportedFlagThunk h op) := by
  rw [call_eq] at hcall
  rcases sixteen_le_or_unsupported (denotes_words h hargs) hcall hneeds with
    ⟨c, words, hquery, hwords, hle⟩ | hunsupported
  · obtain ⟨z, rest, rfl, rfl, -⟩ := List.map_eq_cons_iff.1 hwords
    obtain ⟨code, args', hcode, -, rfl⟩ := List.forall₂_cons_right_iff.1 hargs
    rw [BitVec.toNat_setWidth] at hle
    exact .inl ⟨code, args', _, _, hquery, rfl, hcode.2.eval_eq, hle⟩
  · exact .inr hunsupported

/-! ## What the arguments evaluate to -/

theorem exists_evaluates (hargs : ∀ t ∈ args, ∃ w, t.HasSort (.bitVec w))
    (hm : ∀ t ∈ args, ∀ p ∈ t.occurrences, ∃ value, m p.1 = some value) :
    ∃ values, List.Forall₂ (Term.Evaluates m) args values := by
  induction args with
  | nil => exact ⟨[], .nil⟩
  | cons t ts ih =>
    obtain ⟨⟨w, ht⟩, hts⟩ := List.forall_mem_cons.1 hargs
    obtain ⟨hmt, hmts⟩ := List.forall_mem_cons.1 hm
    obtain ⟨x, hx⟩ := ht.hasValue hmt
    obtain ⟨values, hvalues⟩ := ih hts hmts
    exact ⟨⟨w, x⟩ :: values, .cons ⟨ht.width_pos, hx⟩ hvalues⟩

theorem evaluates_known (hargs : List.Forall₂ (Term.Evaluates m) args values) :
    List.Forall₂ (Term.Evaluates m) (args.map (Term.known m)) values := by
  rw [List.forall₂_map_left_iff]
  refine hargs.imp fun t c ht => ⟨ht.1, ?_⟩
  rw [ht.2.known_eq]
  exact ⟨rfl, ht.2.width_le, rfl⟩

theorem isSome_constValue?_known (hargs : List.Forall₂ (Term.Evaluates m) args values) :
    ∀ t ∈ args.map (Term.known m), t.constValue?.isSome := by
  rw [List.forall_mem_map]
  induction hargs with
  | nil => exact List.forall_mem_nil _
  | cons ht _ ih =>
    refine List.forall_mem_cons.2 ⟨?_, ih⟩
    rw [ht.2.known_eq]
    rfl

/-- A call on any terms agrees with the call on the constants that they
evaluate to.  Where its constraints are true, its value is the constant that
the other call gives, and that call relies on nothing.  Where they are not,
the condition code is out of range or the other call has no such operation.
A failure of one is the failure of the other. -/
theorem call_agrees_with_known (h : Helper) (hargs : ∀ t ∈ args, ∃ w, t.HasSort (.bitVec w))
    (hm : ∀ t ∈ args, ∀ p ∈ t.occurrences, ∃ value, m p.1 = some value) :
    (∀ value needs, h.call args = .ok (value, needs) →
      ((∀ need ∈ needs, need.Decides m true) →
        ∃ k, value.eval m = .ok (.word k h.guest.wordBits) ∧
          h.call (args.map (Term.known m)) = .ok (.const k h.guest.wordBits, [])) ∧
      ((¬∀ need ∈ needs, need.Decides m true) →
        h.CodeOutOfRange m args ∨
          ∃ op, h.call (args.map (Term.known m)) = .error (.unsupportedFlagThunk h op))) ∧
    ∀ cause, h.call args = .error cause → h.call (args.map (Term.known m)) = .error cause := by
  obtain ⟨values, hvalues⟩ := exists_evaluates hargs hm
  have hwords := denotes_words h hvalues
  rw [call_of_constants (evaluates_known hvalues) (isSome_constValue?_known hvalues)]
  refine ⟨fun value needs hcall => ⟨fun hneeds => ?_, fun hneeds => ?_⟩, fun cause hcall => ?_⟩
  · rw [call_eq] at hcall
    obtain ⟨x, hx, hvalue⟩ := outcomeWords_of_needs hwords hcall hneeds
    refine ⟨x.toNat, hvalue.eval_eq, ?_⟩
    rw [outcome, hx, Except.map]
  · refine (codeOutOfRange_or_unsupported hvalues hcall hneeds).imp_right ?_
    rintro ⟨op, hop⟩
    exact ⟨op, by rw [hop, Except.map]⟩
  · rw [call_eq] at hcall
    rw [outcome, outcomeWords_of_error hwords hcall, Except.map]

/-- A condition with a code, an operation and an operand that are variables
of different widths. -/
def conditionArgs : List Term :=
  [.var "code" 8, .var "op" 128, .var "left" 16, .const 5 64, .const 0 64]

/-- Equality of two words, after their difference. -/
def equalAfterSub : Model
  | "code" => some 4
  | "op" => some 8
  | _ => some 5

theorem call_agrees_with_known_condition :
    ∃ value needs k, (Helper.mk .amd64 .condition).call conditionArgs = .ok (value, needs) ∧
      needs ≠ [] ∧ value.eval equalAfterSub = .ok (.word k 64) ∧
      (Helper.mk .amd64 .condition).call (conditionArgs.map (Term.known equalAfterSub)) =
        .ok (.const k 64, []) := by
  have hsorts : ∀ t ∈ conditionArgs, ∃ w, t.HasSort (.bitVec w) := by
    simp only [conditionArgs, List.forall_mem_cons]
    exact ⟨⟨8, .var _ (by decide) (by decide)⟩, ⟨128, .var _ (by decide) (by decide)⟩,
      ⟨16, .var _ (by decide) (by decide)⟩, ⟨64, .const (by decide) (by decide) (by decide)⟩,
      ⟨64, .const (by decide) (by decide) (by decide)⟩, List.forall_mem_nil _⟩
  have hm : ∀ name, ∃ value, equalAfterSub name = some value := by
    intro name
    unfold equalAfterSub
    split <;> exact ⟨_, rfl⟩
  have hcalled : ((Helper.mk .amd64 .condition).call conditionArgs).toOption.any
      fun r => r.2 ≠ [] ∧ ∀ need ∈ r.2, need.eval equalAfterSub = .ok (.bool true) := by
    rw [call_eq]
    rfl
  obtain ⟨⟨value, needs⟩, hcall, hneeds⟩ := any_toOption_iff.1 hcalled
  obtain ⟨hsome, htrue⟩ := of_decide_eq_true hneeds
  obtain ⟨hagrees, -⟩ := call_agrees_with_known (Helper.mk .amd64 .condition) hsorts
    fun _ _ p _ => hm p.1
  obtain ⟨k, hvalue, hknown⟩ := (hagrees value needs hcall).1 htrue
  exact ⟨value, needs, k, hcall, hsome, hvalue, hknown⟩

end Helper

end SymLift
