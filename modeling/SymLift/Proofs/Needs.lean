import SymLift.Proofs.Lifting

/-!
# Side conditions mean that helper calls are modeled

The side conditions of a lifted tree say of the helper calls in it that they
are modeled, and nothing else.

* A model under which the calls outside the conditions of choices are modeled
  satisfies them.  This asks that no value is too wide: `wide_need_fails` is a
  tree without any call whose side condition has no truth.
* With the side conditions of all arguments kept, a model that satisfies them
  models these calls.  `callsModeled_of_lifts` reads the truth of the side
  conditions only, so it asks nothing of the widths.
* `needs_hold_iff_callsModeled` states both.
-/

namespace SymLift

open Term

namespace PathState

open IR (Expr Op Ty)

variable {policy : ArgumentPolicy} {s : PathState} {m : Model} {e : Expr} {v : Lifted}

/-! ## From side conditions to calls -/

/-- The test for zero tells of the number of its condition. -/
theorem hasNumber_of_zeroTest {cond : Term} {b : Bool} (h : (zeroTest cond).Decides m b) :
    ∃ k, cond.HasNumber m k ∧ decide (k = 0) = b := by
  obtain ⟨k, w, hk, hholds⟩ := Fold.hasNumber_of_decides rfl h
  have hzero : Word.truncate cond.width 0 = 0 := Nat.zero_mod _
  rw [hzero] at hholds
  exact ⟨k, hk, hholds⟩

/-- A choice whose side condition is true satisfies those of the arm that it
takes. -/
theorem needs_of_muxNeed {cond : Term} {zeroNeeds otherNeeds : List Term} {k : Nat}
    (h : (muxNeed cond zeroNeeds otherNeeds).Decides m true) (hk : cond.HasNumber m k) :
    ∀ t ∈ (if k = 0 then zeroNeeds else otherNeeds), t.Decides m true := by
  -- One of the two conjunctions holds, and its guard says which arm is taken.
  obtain ⟨arm, harm, htrue⟩ := Fold.exists_of_decides_connect connects_disj h
  rcases List.mem_cons.1 harm with rfl | harm
  · obtain ⟨htest, hneeds⟩ := List.forall_mem_cons.1
      ((Fold.decides_connect_neutral_iff connects_conj).1 htrue)
    obtain ⟨j, hj, hzero⟩ := hasNumber_of_zeroTest htest
    rwa [hk.unique hj, if_pos (of_decide_eq_true hzero)]
  · obtain rfl := List.mem_singleton.1 harm
    obtain ⟨htest, hneeds⟩ := List.forall_mem_cons.1
      ((Fold.decides_connect_neutral_iff connects_conj).1 htrue)
    obtain ⟨j, hj, hzero⟩ := hasNumber_of_zeroTest (Fold.decides_of_not htest)
    rwa [hk.unique hj, if_neg (of_decide_eq_false hzero)]

/-- The calls of a tree whose side conditions are all kept, and true, are
modeled. -/
theorem callsModeled_of_lifts (h : Lifts .all s e v) (hneeds : ∀ t ∈ v.needs, t.Decides m true) :
    CallsModeled .all s m false e := by
  induction h with
  | get | rdTmp | const =>
    intro callee retTy args hreach
    cases hreach with
    | operand ha => exact absurd ha List.not_mem_nil
  | @op e op args vals v he hlength hargs h ih =>
    rw [(of_liftOp h).2] at hneeds
    intro callee retTy args' hreach
    cases hreach with
    | self => cases he
    | operand ha hd =>
      rw [(Expr.operands_of_operands? he).1] at ha
      obtain ⟨u, hmem⟩ := exists_zip_of_mem_left hlength ha
      have hu := (List.of_mem_zip hmem).2
      exact ih hmem (fun t ht => hneeds t (List.mem_flatMap.2 ⟨u, hu, ht⟩)) callee retTy args' hd
    | condition | zeroArm | otherArm => cases he
  | @load order ty addr a v haddr h ih =>
    rw [needs_liftLoad h] at hneeds
    intro callee retTy args hreach
    cases hreach with
    | operand ha hd =>
      obtain rfl := List.mem_singleton.1 ha
      exact ih hneeds callee retTy args hd
  | @ccall callee retTy args vals v hlength hargs h ih =>
    obtain ⟨helper, value, needs, hname, hcall, -, hkept⟩ := of_liftCall h
    rw [hkept, List.forall_mem_append] at hneeds
    intro callee' retTy' args' hreach
    cases hreach with
    | self =>
      intro helper' vals' hname' hvals'
      obtain rfl := Option.some.inj (hname.symm.trans hname')
      obtain rfl := Except.ok.inj ((liftAll_of_lifts hlength hargs).symm.trans hvals')
      exact Helper.modeled_of_call hcall hneeds.2
    | operand ha hd =>
      obtain ⟨u, hmem⟩ := exists_zip_of_mem_left hlength ha
      have hu := (List.of_mem_zip hmem).2
      exact ih hmem (fun t ht => hneeds.1 t (List.mem_flatMap.2 ⟨u, hu, ht⟩))
        callee' retTy' args' hd
  | @mux0X cond expr0 exprX c v0 vX v hcond hzero hother h ihCond ihZero ihOther =>
    rw [(of_liftMux h).2.2, List.forall_mem_singleton] at hneeds
    intro callee retTy args hreach
    cases hreach with
    | operand ha => exact absurd ha List.not_mem_nil
    | condition hfalse => cases hfalse
    | zeroArm hlift hk hd =>
      obtain rfl := Except.ok.inj ((lift_of_lifts hcond).symm.trans hlift)
      exact ihZero (needs_of_muxNeed hneeds hk) callee retTy args hd
    | otherArm hlift hk hne hd =>
      obtain rfl := Except.ok.inj ((lift_of_lifts hcond).symm.trans hlift)
      have harm := needs_of_muxNeed hneeds hk
      rw [if_neg hne] at harm
      exact ihOther harm callee retTy args hd

/-! ## Both directions -/

/-- The side conditions are true exactly if the helper calls that a model
evaluates outside the conditions of choices are modeled.  One direction asks
that no value is too wide, and the other that the side conditions of all
arguments are kept. -/
theorem needs_hold_iff_callsModeled (hs : s.WellFormed) (hm : m.Total)
    (h : s.lift policy e = .ok v) :
    (NoWide policy s e → CallsModeled policy s m false e → ∀ t ∈ v.needs, t.Decides m true) ∧
      (policy = .all → (∀ t ∈ v.needs, t.Decides m true) → CallsModeled policy s m false e) := by
  constructor
  · intro hwide hcalls t ht
    obtain ⟨b, hb, hmodeled⟩ := exists_decides_of_lifts hs hm (lifts_of_lift h) hwide t ht
    rwa [hmodeled hcalls] at hb
  · rintro rfl hneeds
    exact callsModeled_of_lifts (lifts_of_lift h) hneeds

/-! ### A choice between a call that is modeled and one that is not -/

/-- The carry of an operation that is modeled, or of one that is not. -/
def eitherTree : Expr :=
  .mux0X (.get 16 .i8) (carryCall (.rdTmp 0) .i64) (carryCall (.rdTmp 1) .i64)

theorem callsModeled_eitherTree :
    CallsModeled .all pinnedPath pinnedModel false eitherTree := by
  intro callee retTy args hreach
  cases hreach with
  | operand ha => exact absurd ha List.not_mem_nil
  | condition hfalse => cases hfalse
  | @zeroArm _ _ _ _ c hlift hk =>
    have hone : (pinnedPath.lift .all (.get 16 .i8)).toOption.all
        (·.value.eval pinnedModel = .ok (.word 1 8)) := by
      rfl
    have hnumber := of_decide_eq_true (all_toOption_iff.1 hone c hlift)
    cases hk.unique ⟨8, hnumber⟩
  | otherArm _ _ _ harm => exact callsModeled_carryCall _ _ callee retTy args harm

set_option maxRecDepth 2048 in
theorem noWide_eitherTree : NoWide .all pinnedPath eitherTree :=
  .of_closed [eitherTree, .get 16 .i8, carryCall (.rdTmp 0) .i64, carryCall (.rdTmp 1) .i64,
    .rdTmp 0, .rdTmp 1, .const (.u64 1), .const (.u64 0)]
    (by decide) (by decide) List.mem_cons_self

theorem needs_hold_iff_callsModeled_either :
    ∃ v, pinnedPath.lift .all eitherTree = .ok v ∧ v.needs ≠ [] ∧
      (∀ t ∈ v.needs, t.Decides pinnedModel true) ∧
        CallsModeled .all pinnedPath pinnedModel false eitherTree := by
  have hlifts : (pinnedPath.lift .all eitherTree).toOption.any (·.needs ≠ []) := by decide +kernel
  obtain ⟨v, hlift, hsome⟩ := any_toOption_iff.1 hlifts
  have hm : pinnedModel.Total := fun name => ⟨_, rfl⟩
  obtain ⟨hforward, hback⟩ := needs_hold_iff_callsModeled wellFormed_pinnedPath hm hlift
  have hneeds := hforward noWide_eitherTree callsModeled_eitherTree
  exact ⟨v, hlift, of_decide_eq_true hsome, hneeds, hback rfl hneeds⟩

/-! ### A choice by a value that is too wide -/

/-- A path with a word and the amount of a shift. -/
def widePath : PathState := (start .amd64).bindTemp 0 (.var "x" 128) |>.bindTemp 1 (.var "k" 8)

/-- A choice by the low byte of a shift, which has 255 bits. -/
def wideTree : Expr :=
  .mux0X (.unop (.convert .low 64 8)
      (.binop (.sized .shl 64) (.unop (.convert .unsigned 1 128) (.rdTmp 0)) (.rdTmp 1)))
    (.const (.u32 1)) (.const (.u32 2))

/-- The amount is past the widest word. -/
def wideModel : Model := fun name => some (if name = "k" then 200 else 1)

theorem wellFormed_widePath : widePath.WellFormed :=
  ((wellFormed_start .amd64).bindTemp (.var "x" (by decide) (by decide)) 0).bindTemp
    (.var "k" (by decide) (by decide)) 1

theorem callsModeled_wideTree : CallsModeled .all widePath wideModel false wideTree := by
  intro callee retTy args hreach
  have hmem := hreach.within.mem_of_closed
    [wideTree, .unop (.convert .low 64 8)
      (.binop (.sized .shl 64) (.unop (.convert .unsigned 1 128) (.rdTmp 0)) (.rdTmp 1)),
      .binop (.sized .shl 64) (.unop (.convert .unsigned 1 128) (.rdTmp 0)) (.rdTmp 1),
      .unop (.convert .unsigned 1 128) (.rdTmp 0), .rdTmp 0, .rdTmp 1, .const (.u32 1),
      .const (.u32 2)]
    (by decide) List.mem_cons_self
  simp [wideTree] at hmem

/-- The tree has no helper call, and yet its side condition is not true. -/
theorem wide_need_fails :
    widePath.WellFormed ∧ wideModel.Total ∧ CallsModeled .all widePath wideModel false wideTree ∧
      ∃ v, widePath.lift .all wideTree = .ok v ∧ ¬ ∀ t ∈ v.needs, t.Decides wideModel true := by
  refine ⟨wellFormed_widePath, fun name => ⟨_, rfl⟩, callsModeled_wideTree, ?_⟩
  have hfails : (widePath.lift .all wideTree).toOption.any fun v =>
      decide (∃ t ∈ v.needs, t.eval wideModel ≠ .ok (.bool true)) := by
    decide +kernel
  obtain ⟨v, hlift, hfail⟩ := any_toOption_iff.1 hfails
  obtain ⟨t, ht, hfail⟩ := of_decide_eq_true hfail
  exact ⟨v, hlift, fun hall => hfail (hall t ht)⟩

end PathState

end SymLift
