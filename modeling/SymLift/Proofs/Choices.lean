import SymLift.Proofs.Enumeration
import SymLift.Proofs.Needs
import SymLift.Proofs.Policies

/-!
# A choice never mixes its arms

A choice between two lifted values has the value of one of them, and relies
on what that one relies on.  The test for zero stands in the value and in both
halves of the side condition, and it folds in each of them for itself.

* `eval_of_liftMux` and `muxNeed_iff`: the value of a choice, and what its
  side condition means.
* `Apart` says that the two halves of a side condition exclude each other,
  and `apart_halves` that they do.
* `Selects` follows the conditions through nested choices to one arm, and
  `standsFor_of_selects` says that they stand for it.
* `chooses_arm` puts these together, and `choice_by_wide_value` says where a
  condition is too wide for it.
-/

namespace SymLift

open Term

namespace PathState

open IR (Expr Op Ty)

variable {policy : ArgumentPolicy} {s : PathState} {m : Model} {e cond expr0 exprX : Expr}
  {v c l l0 lX u : Lifted}

/-! ## What a choice takes and relies on -/

variable {ts us : List Term} {test : Term} {k : Nat} {b : Bool}

/-- The test for zero is that of the number of the condition, whatever its
sort. -/
theorem decides_zeroTest_of_hasNumber (hk : test.HasNumber m k) :
    (zeroTest test).Decides m (decide (k = 0)) := by
  have hzero : Word.truncate test.width 0 = 0 := Nat.zero_mod _
  have hequal (w : Nat) : CompareOp.holds .eq w k 0 = decide (k = 0) := by
    rw [CompareOp.holds, Bool.eq_iff_iff, beq_iff_eq, decide_eq_true_iff]
  cases hconst : test.constValue? with
  | some value =>
    obtain rfl := hk.unique (hasNumber_const hconst)
    have htest : zeroTest test = .bool (CompareOp.holds .eq test.width k 0) := by
      rw [zeroTest, Fold.lit, hzero, Fold.compare, hconst]
      rfl
    rw [htest, hequal]
    exact decides_bool _
  | none =>
    obtain ⟨w, heval⟩ := hk
    have htest : zeroTest test = .compare .eq test (Fold.lit 0 test.width) :=
      Fold.compare_of_constValue? .eq hconst rfl
    rw [htest, Decides, Term.eval, heval, Fold.lit, hzero, Term.eval]
    exact congrArg (fun truth => Except.ok (Value.bool truth)) (hequal w)

/-- A choice has the value of the arm that it takes. -/
theorem eval_of_liftMux (h : liftMux test l0 lX = .ok l) (hk : test.HasNumber m k) :
    l.value.eval m = (if k = 0 then l0 else lX).value.eval m := by
  rw [(of_liftMux h).2.1, Fold.eval_ite (decides_zeroTest_of_hasNumber hk)]
  by_cases hzero : k = 0
  · rw [if_pos (decide_eq_true hzero), if_pos hzero]
  · rw [if_neg (by simpa using hzero), if_neg hzero]

/-- The side condition of a choice, where it has a truth, is that of the arm
that is taken. -/
theorem muxNeed_iff (hk : test.HasNumber m k) (hb : (muxNeed test ts us).Decides m b) :
    b = true ↔ ∀ t ∈ (if k = 0 then ts else us), t.Decides m true := by
  refine ⟨fun htrue => needs_of_muxNeed (htrue ▸ hb) hk, fun hneeds => ?_⟩
  have htest := decides_zeroTest_of_hasNumber hk
  by_contra hfalse
  rw [Bool.not_eq_true] at hfalse
  have hhalves := (Fold.decides_connect_neutral_iff connects_disj).1 (hfalse ▸ hb)
  obtain ⟨hfirst, hsecond⟩ := List.forall_mem_cons.1 hhalves
  have hsecond := List.forall_mem_singleton.1 hsecond
  by_cases hzero : k = 0
  · rw [if_pos hzero] at hneeds
    rw [decide_eq_true hzero] at htest
    have hholds := (Fold.decides_connect_neutral_iff connects_conj).2
      (List.forall_mem_cons.2 ⟨htest, hneeds⟩)
    cases hholds.unique hfirst
  · rw [if_neg hzero] at hneeds
    have hnot := Fold.decides_not htest
    rw [decide_eq_false hzero] at hnot
    have hholds := (Fold.decides_connect_neutral_iff connects_conj).2
      (List.forall_mem_cons.2 ⟨hnot, hneeds⟩)
    cases hholds.unique hsecond

/-- Where the side condition of a choice has a truth, so have those of the arm
that is taken. -/
theorem truths_of_taken (hts : ∀ t ∈ ts, t.Inert) (hus : ∀ u ∈ us, u.Inert)
    (hk : test.HasNumber m k) (hb : (muxNeed test ts us).Decides m b) :
    ∀ t ∈ (if k = 0 then ts else us), ∃ d, t.Decides m d := by
  rcases zeroTest_cases test with ⟨known, hknown⟩ | hopen
  · have hsame : known = decide (k = 0) :=
      (hknown ▸ decides_bool known : (zeroTest test).Decides m known).unique
        (decides_zeroTest_of_hasNumber hk)
    rw [muxNeed_of_known hknown, hsame] at hb
    simp only [decide_eq_true_iff] at hb
    refine Fold.truths_of_connect connects_conj (fun t ht => ?_) hb
    split at ht
    · exact (hts t ht).ne_false
    · exact (hus t ht).ne_false
  · obtain ⟨-, hts, hus⟩ := truths_of_muxNeed hopen hts hus hb
    split
    · exact hts
    · exact hus

/-! ## The two halves of a side condition -/

/-- Two terms exclude each other: one is true only where the condition is
zero, and the other only where it is not. -/
structure Apart (test first second : Term) : Prop where
  zero : ∀ m : Model, first.Decides m true → test.HasNumber m 0
  other : ∀ m : Model, second.Decides m true → ∃ k, k ≠ 0 ∧ test.HasNumber m k
  never_both : ∀ m : Model, ¬(first.Decides m true ∧ second.Decides m true)
  /-- No search finds an assignment under which the condition is zero and the
  second term holds. -/
  zero_unsat : ∀ maxBits constraints, Fold.compare .eq test (Fold.lit 0 test.width) ∈ constraints →
    second ∈ constraints → ∀ pairs, Solver.check maxBits constraints ≠ .ok (.sat pairs)
  other_unsat : ∀ maxBits constraints, Fold.notEqual test (Fold.lit 0 test.width) ∈ constraints →
    first ∈ constraints → ∀ pairs, Solver.check maxBits constraints ≠ .ok (.sat pairs)

theorem apart_halves (test : Term) (ts us : List Term) :
    Apart test (Fold.conj (zeroTest test :: ts)) (Fold.conj (Fold.not (zeroTest test) :: us)) := by
  have hfirst (m : Model) (h : (Fold.conj (zeroTest test :: ts)).Decides m true) :
      (zeroTest test).Decides m true :=
    (List.forall_mem_cons.1 ((Fold.decides_connect_neutral_iff connects_conj).1 h)).1
  have hsecond (m : Model) (h : (Fold.conj (Fold.not (zeroTest test) :: us)).Decides m true) :
      (zeroTest test).Decides m false :=
    Fold.decides_of_not
      (List.forall_mem_cons.1 ((Fold.decides_connect_neutral_iff connects_conj).1 h)).1
  constructor
  · intro m h
    obtain ⟨k, hk, hzero⟩ := hasNumber_of_zeroTest (hfirst m h)
    exact of_decide_eq_true hzero ▸ hk
  · intro m h
    obtain ⟨k, hk, hother⟩ := hasNumber_of_zeroTest (hsecond m h)
    exact ⟨k, of_decide_eq_false hother, hk⟩
  · rintro m ⟨hfirst', hsecond'⟩
    cases (hfirst m hfirst').unique (hsecond m hsecond')
  · intro maxBits constraints hzero hmem pairs hsat
    have hall := Solver.satisfies_of_check hsat
    cases (hall _ hzero).unique (hsecond _ (hall _ hmem))
  · intro maxBits constraints hother hmem pairs hsat
    have hall := Solver.satisfies_of_check hsat
    cases (Fold.decides_of_not (hall _ hother)).unique (hfirst _ (hall _ hmem))

/-- The side condition of a choice by a condition that is not known has two
halves. -/
theorem muxNeed_eq_disj (hopen : test.constValue? = none) (hts : ∀ t ∈ ts, t.Inert)
    (hus : ∀ u ∈ us, u.Inert) : muxNeed test ts us =
      .disj [Fold.conj (zeroTest test :: ts), Fold.conj (Fold.not (zeroTest test) :: us)] := by
  have htest : zeroTest test = .compare .eq test (Fold.lit 0 test.width) :=
    Fold.compare_of_constValue? .eq hopen rfl
  have hfirst : (Fold.conj (zeroTest test :: ts)).boolValue? = none :=
    Fold.boolValue?_conj_cons (htest ▸ rfl) fun t ht => (hts t ht).ne_false
  have hsecond : (Fold.conj (Fold.not (zeroTest test) :: us)).boolValue? = none :=
    Fold.boolValue?_conj_cons (htest ▸ rfl) fun u hu => (hus u hu).ne_false
  rw [muxNeed, Fold.disj, Fold.connect, Fold.remaining_of_boolValue?
    (List.forall_mem_cons.2 ⟨hfirst, List.forall_mem_singleton.2 hsecond⟩)]

/-! ## Nested choices -/

/-- A lifted value stands for another under a model.  They have one value, and
where the side conditions of the first have truths, they hold if and only if
those of the other do. -/
structure StandsFor (m : Model) (l u : Lifted) : Prop where
  eval_eq : l.value.eval m = u.value.eval m
  truths : (∀ t ∈ l.needs, ∃ b, t.Decides m b) → ∀ t ∈ u.needs, ∃ b, t.Decides m b
  holds_iff : (∀ t ∈ l.needs, ∃ b, t.Decides m b) →
    ((∀ t ∈ l.needs, t.Decides m true) ↔ ∀ t ∈ u.needs, t.Decides m true)

theorem StandsFor.refl (m : Model) (l : Lifted) : StandsFor m l l := ⟨rfl, id, fun _ => Iff.rfl⟩

theorem StandsFor.trans (h : StandsFor m l v) (h' : StandsFor m v u) : StandsFor m l u where
  eval_eq := h.eval_eq.trans h'.eval_eq
  truths := fun htruths => h'.truths (h.truths htruths)
  holds_iff := fun htruths => (h.holds_iff htruths).trans (h'.holds_iff (h.truths htruths))

/-- A choice stands for the arm that it takes. -/
theorem standsFor_of_liftMux (h0 : ∀ t ∈ l0.needs, t.Inert) (hX : ∀ t ∈ lX.needs, t.Inert)
    (h : liftMux test l0 lX = .ok l) (hk : test.HasNumber m k) :
    StandsFor m l (if k = 0 then l0 else lX) := by
  have harm : (if k = 0 then l0 else lX).needs = if k = 0 then l0.needs else lX.needs :=
    apply_ite Lifted.needs _ _ _
  have hneed {P : Term → Prop} : (∀ t ∈ l.needs, P t) ↔ P (muxNeed test l0.needs lX.needs) := by
    rw [(of_liftMux h).2.2, List.forall_mem_singleton]
  refine ⟨eval_of_liftMux h hk, fun htruths => ?_, fun htruths => ?_⟩
  · obtain ⟨b, hb⟩ := hneed.1 htruths
    rw [harm]
    exact truths_of_taken h0 hX hk hb
  · obtain ⟨b, hb⟩ := hneed.1 htruths
    rw [hneed, harm, hb.iff_eq]
    exact muxNeed_iff hk hb

/-- The conditions of nested choices lead to an arm. -/
inductive Selects (policy : ArgumentPolicy) (s : PathState) (m : Model) : Expr → Lifted → Prop where
  | arm {e : Expr} {u : Lifted} (h : s.lift policy e = .ok u) : Selects policy s m e u
  | choice {cond expr0 exprX : Expr} {c u : Lifted} {k : Nat} (hcond : s.lift policy cond = .ok c)
    (hk : c.value.HasNumber m k) (h : Selects policy s m (if k = 0 then expr0 else exprX) u) :
    Selects policy s m (.mux0X cond expr0 exprX) u

/-- Nested choices stand for the arm that their conditions lead to. -/
theorem standsFor_of_selects (hs : s.ConstantsReduced) (h : Selects policy s m e u)
    (hlift : s.lift policy e = .ok v) : StandsFor m v u := by
  induction h generalizing v with
  | arm h =>
    obtain rfl := Except.ok.inj (hlift.symm.trans h)
    exact .refl m v
  | @choice cond expr0 exprX c u k hcond hk _ ih =>
    cases lifts_of_lift hlift with
    | op he => cases he
    | @mux0X _ _ _ c' v0 vX _ hcond' hzero hother hmux =>
      obtain rfl := Except.ok.inj ((lift_of_lifts hcond').symm.trans hcond)
      have hstep := standsFor_of_liftMux (inert_of_lift hs (lift_of_lifts hzero))
        (inert_of_lift hs (lift_of_lifts hother)) hmux hk
      have harm : s.lift policy (if k = 0 then expr0 else exprX) =
          .ok (if k = 0 then v0 else vX) := by
        split
        · exact lift_of_lifts hzero
        · exact lift_of_lifts hother
      exact hstep.trans (ih harm)

/-! ## A choice of one arm -/

/-- A lifted choice by the value of `c` between `l0` and `lX` is `l`, and
relies on `need` alone. -/
structure ChoosesArm (policy : ArgumentPolicy) (s : PathState) (cond expr0 exprX : Expr)
    (c l0 lX l : Lifted) (need : Term) : Prop where
  lifts : s.lift policy (.mux0X cond expr0 exprX) = .ok l
  needs : l.needs = [need]
  /-- Where the condition has a number, the value is that of the arm that is
  taken, and a side condition that has a truth holds if and only if those of
  that arm do. -/
  taken : ∀ (m : Model) k, c.value.HasNumber m k →
    l.value.eval m = (if k = 0 then l0 else lX).value.eval m ∧
      ∀ b, need.Decides m b →
        (b = true ↔ ∀ t ∈ (if k = 0 then l0 else lX).needs, t.Decides m true)
  /-- It has a truth where those of both arms have, and so it has wherever no
  value is too wide. -/
  truth : ∀ (m : Model) k, c.value.HasNumber m k →
    (∀ t ∈ l0.needs ++ lX.needs, ∃ b, t.Decides m b) → ∃ b, need.Decides m b
  total : s.WellFormed → ∀ m : Model, m.Total → NoWide policy s (.mux0X cond expr0 exprX) →
    (∃ k, c.value.HasNumber m k) ∧ ∃ b, need.Decides m b
  /-- What the condition relies on has no effect. -/
  cond_needs : ∀ cond' c', s.lift policy cond' = .ok c' → c'.value = c.value →
    s.lift policy (.mux0X cond' expr0 exprX) = .ok l
  /-- A condition that is no constant leaves two halves that exclude each
  other. -/
  halves : c.value.constValue? = none → ∃ first second, need = .disj [first, second] ∧
    Apart c.value first second
  /-- The arms may be choices again. -/
  nested : ∀ (m : Model) u, Selects policy s m (.mux0X cond expr0 exprX) u →
    l.value.eval m = u.value.eval m ∧
      ∀ b, need.Decides m b → (b = true ↔ ∀ t ∈ u.needs, t.Decides m true)

/-- A condition of 1 to 128 bits chooses between values of one sort. -/
theorem chooses_arm (hs : s.ConstantsReduced) {w width : Nat} (hc : s.lift policy cond = .ok c)
    (h0 : s.lift policy expr0 = .ok l0) (hX : s.lift policy exprX = .ok lX)
    (hcond : c.value.sort = .bitVec w) (pos : 1 ≤ w) (le : w ≤ 128)
    (hzero : l0.value.sort = .bitVec width) (hother : lX.value.sort = .bitVec width) :
    ∃ l need, ChoosesArm policy s cond expr0 exprX c l0 lX l need := by
  have hwidth : c.value.width = w := by rw [Term.width, hcond, TermSort.width]
  have hinert0 := inert_of_lift hs h0
  have hinertX := inert_of_lift hs hX
  have hmux : liftMux c.value l0 lX = .ok ⟨Fold.ite (zeroTest c.value) l0.value lX.value,
      [muxNeed c.value l0.needs lX.needs]⟩ := by
    have htest : Build.compare .eq c.value (Fold.lit 0 c.value.width) = .ok (zeroTest c.value) :=
      Build.compare_ok rfl
    have hbool : (zeroTest c.value).isBool = true := isBool_of_sort (Fold.sort_compare .eq)
    rw [liftMux_of_inert hinert0 hinertX, Build.lit_ok (hwidth ▸ pos) (hwidth ▸ le), fault_ok_bind,
      htest, fault_ok_bind, Build.ite_ok hbool (hzero.trans hother.symm)]
    rfl
  have hlifts : s.lift policy (.mux0X cond expr0 exprX) =
      .ok ⟨Fold.ite (zeroTest c.value) l0.value lX.value,
        [muxNeed c.value l0.needs lX.needs]⟩ := by
    rw [lift, hc, ok_bind, h0, ok_bind, hX, ok_bind, hmux]
  refine ⟨_, _, hlifts, rfl, fun m k hk => ?_, fun m k hk htruths => ?_, fun hwf m hm hwide => ?_,
    fun cond' c' hc' hsame => ?_, fun hopen => ?_, fun m u hselects => ?_⟩
  · refine ⟨eval_of_liftMux hmux hk, fun b hb => (muxNeed_iff hk hb).trans ?_⟩
    split <;> exact Iff.rfl
  · obtain ⟨htruths0, htruthsX⟩ := List.forall_mem_append.1 htruths
    obtain ⟨b, hb, -⟩ :=
      exists_decides_muxNeed (decides_zeroTest_of_hasNumber hk) htruths0 htruthsX
    exact ⟨b, hb⟩
  · obtain ⟨x, hx⟩ := exists_evaluates_of_lifts hwf hm (lifts_of_lift hc)
      (hwide.child Expr.cond_mem_children)
    obtain ⟨b, hb, -⟩ := exists_decides_of_lifts hwf hm (lifts_of_lift hlifts) hwide _
      List.mem_cons_self
    exact ⟨⟨_, hx.2.hasNumber⟩, b, hb⟩
  · rw [lift, hc', ok_bind, h0, ok_bind, hX, ok_bind, hsame, hmux]
  · exact ⟨_, _, muxNeed_eq_disj hopen hinert0 hinertX, apart_halves _ _ _⟩
  · have harm := standsFor_of_selects hs hselects hlifts
    refine ⟨harm.eval_eq, fun b hb => ?_⟩
    have hiff := harm.holds_iff (List.forall_mem_singleton.2 ⟨b, hb⟩)
    rwa [List.forall_mem_singleton, hb.iff_eq] at hiff

/-- A choice between a choice of two calls and a constant. -/
theorem chooses_arm_either :
    ∃ c l0 lX l need, ChoosesArm .all pinnedPath (.get 24 .i8) eitherTree (.const (.u64 3)) c l0 lX
        l need ∧ c.value.constValue? = none ∧ l.value.eval pinnedModel = .ok (.word 3 64) := by
  have hcond : (pinnedPath.lift .all (.get 24 .i8)).toOption.any fun c =>
      c.value.sort = .bitVec 8 ∧ c.value.constValue? = none ∧
        c.value.eval pinnedModel = .ok (.word 1 8) := by
    decide +kernel
  have hzero : (pinnedPath.lift .all eitherTree).toOption.any (·.value.sort = .bitVec 64) := by
    decide +kernel
  obtain ⟨c, hc, hcond⟩ := any_toOption_iff.1 hcond
  obtain ⟨hsort, hopen, hone⟩ := of_decide_eq_true hcond
  obtain ⟨l0, h0, hzero⟩ := any_toOption_iff.1 hzero
  have hX : pinnedPath.lift .all (.const (.u64 3)) = .ok ⟨.const 3 64, []⟩ := rfl
  obtain ⟨l, need, h⟩ :=
    chooses_arm wellFormed_pinnedPath.holdsBitVectors.constantsReduced hc h0 hX hsort (by decide)
      (by decide) (of_decide_eq_true hzero) rfl
  exact ⟨c, l0, _, l, need, h, hopen, (h.taken pinnedModel 1 ⟨8, hone⟩).1⟩

/-! ### Choices and values that are too wide -/

/-- Under a model a choice means the arm that it takes, whatever the widths of
the values. -/
def MeansTakenArm (policy : ArgumentPolicy) (s : PathState) (m : Model)
    (cond expr0 exprX : Expr) : Prop :=
  ∀ c l0 lX v w, s.lift policy cond = .ok c → s.lift policy expr0 = .ok l0 →
    s.lift policy exprX = .ok lX → c.value.sort = .bitVec v → l0.value.sort = .bitVec w →
    lX.value.sort = .bitVec w →
    ∃ l need, s.lift policy (.mux0X cond expr0 exprX) = .ok l ∧ l.needs = [need] ∧
      ∀ k, c.value.HasNumber m k →
        l.value.eval m = (if k = 0 then l0 else lX).value.eval m ∧
          (need.Decides m true ↔ ∀ t ∈ (if k = 0 then l0 else lX).needs, t.Decides m true)

/-- A choice by a condition of 255 bits is not lifted.  A choice that does not
take a choice by such a value has a side condition without a truth. -/
theorem choice_by_wide_value :
    widePath.WellFormed ∧ wideModel.Total ∧
      ¬MeansTakenArm .first widePath wideModel (.unop (.convert .unsigned 1 128) (.rdTmp 0))
        (.const (.u32 1)) (.const (.u32 2)) ∧
      ¬MeansTakenArm .first widePath wideModel (.get 16 .i8) wideTree (.const (.u32 3)) := by
  refine ⟨wellFormed_widePath, fun name => ⟨_, rfl⟩, fun hmeans => ?_, fun hmeans => ?_⟩
  · have hwide : widePath.lift .first (.unop (.convert .unsigned 1 128) (.rdTmp 0)) =
        .ok ⟨.zeroExt 127 (.var "x" 128), []⟩ := by rfl
    obtain ⟨l, need, hlift, -⟩ := hmeans _ _ _ 255 32 hwide rfl rfl rfl rfl rfl
    have hfails : (widePath.lift .first (.mux0X (.unop (.convert .unsigned 1 128) (.rdTmp 0))
        (.const (.u32 1)) (.const (.u32 2)))).toOption.isNone := by
      decide +kernel
    rw [hlift] at hfails
    cases hfails
  · have hcond : (widePath.lift .first (.get 16 .i8)).toOption.any fun c =>
        c.value.sort = .bitVec 8 ∧ c.value.eval wideModel = .ok (.word 1 8) := by
      decide +kernel
    have hzero : (widePath.lift .first wideTree).toOption.any (·.value.sort = .bitVec 32) := by
      decide +kernel
    have hfails : (widePath.lift .first
        (.mux0X (.get 16 .i8) wideTree (.const (.u32 3)))).toOption.any fun l =>
          ∀ t ∈ l.needs, t.eval wideModel ≠ .ok (.bool true) := by
      decide +kernel
    obtain ⟨c, hc, hcond⟩ := any_toOption_iff.1 hcond
    obtain ⟨hsort, hone⟩ := of_decide_eq_true hcond
    obtain ⟨l0, h0, hzero⟩ := any_toOption_iff.1 hzero
    obtain ⟨l, need, hlift, hneeds, htaken⟩ :=
      hmeans c l0 _ 8 32 hc h0 rfl hsort (of_decide_eq_true hzero) rfl
    obtain ⟨l', hlift', hfail⟩ := any_toOption_iff.1 hfails
    obtain rfl := Except.ok.inj (hlift.symm.trans hlift')
    -- The second arm is taken, which relies on nothing.
    have hholds := (htaken 1 ⟨8, hone⟩).2.2 (List.forall_mem_nil _)
    exact of_decide_eq_true hfail need (hneeds ▸ List.mem_cons_self) hholds

end PathState

end SymLift
