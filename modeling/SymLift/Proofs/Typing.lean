import SymLift.Proofs.KnownCalls
import SymLift.Proofs.Lifting
import SymLift.Proofs.OperatorSorts

/-!
# Well-typed trees lift

`PathState.HasWidth` types a tree by the width of its value.  The width of a
temporary is that of the term it is bound to.

* `hasSort_liftGet`, `hasSort_liftLoad` and `hasSort_liftMux`: the nodes that
  are no operators and no calls succeed on well-formed parts.
* `hasSort_liftCall`: a helper call succeeds, or its operation is a constant
  that is not modeled.
* `lift_of_hasWidth`: a well-typed tree lifts to a well-formed bit-vector of
  its width, or fails at such a call.  No constructor is applied outside its
  domain.
-/

namespace SymLift

/-! ## The operation of a call -/

namespace Helper

variable {h : Helper} {args : List Term} {cause : Failure}

/-- A call with as many arguments as the helper takes has an operation. -/
theorem isSome_operation? {α : Type} {args : List α} (hlength : args.length = h.arity) :
    (h.operation? args).isSome := by
  obtain ⟨guest, query⟩ := h
  cases query with
  | condition => match args, hlength with | [_, _, _, _, _], _ => rfl
  | flags | carry => match args, hlength with | [_, _, _, _], _ => rfl

/-- The operation of a call is a constant that is not modeled. -/
def Unmodeled (h : Helper) (args : List Term) (op : Nat) : Prop :=
  ∃ ccOp, h.operation? (args.map (Fold.resize h.guest.wordBits)) = some ccOp ∧
    ccOp.addressValue? = some op ∧ h.guest.decodeThunk? op = none

/-- A call with as many arguments as the helper takes fails only at its
operation. -/
theorem unmodeled_of_call_error (hlength : args.length = h.arity)
    (hcall : h.call args = .error cause) :
    ∃ op, cause = .unsupportedFlagThunk h op ∧ h.Unmodeled args op := by
  rw [call_eq] at hcall
  rcases callWords_error_cases hcall with ⟨ccOp, f, hop, hover⟩ | ⟨hnone, -⟩
  · unfold overThunkOp at hover
    split at hover
    · rename_i op hconst
      split at hover
      · cases hover
      · rename_i hdecode
        cases hover
        exact ⟨op, rfl, ccOp, hop, hconst, hdecode⟩
    · cases hover
  · have hsome : (h.operation? (args.map (Fold.resize h.guest.wordBits))).isSome :=
      isSome_operation? (by rwa [List.length_map])
    rw [hnone] at hsome
    cases hsome

end Helper

/-- A lifted value is a well-formed bit-vector, and relies on well-formed
booleans. -/
structure Lifted.WellSorted (l : Lifted) (w : Nat) : Prop where
  value : l.value.HasSort (.bitVec w)
  needs : ∀ t ∈ l.needs, t.HasSort .bool

namespace PathState

open IR (Expr Op Ty)

variable {policy : ArgumentPolicy} {s : PathState} {e : Expr} {v w : Nat}

/-! ## Typing -/

/-- The width of the value of a tree. -/
inductive HasWidth (s : PathState) : Expr → Nat → Prop where
  | get (offset : UInt64) (ty : Ty) : HasWidth s (.get offset ty) ty.width
  | rdTmp {tmp : UInt32} {value : Term} {w : Nat} (h : s.temp? tmp.toNat = some value)
    (hw : value.width = w) : HasWidth s (.rdTmp tmp) w
  | const (literal : IR.Const) : HasWidth s (.const literal) literal.ty.width
  /-- The address may have any width. -/
  | load {addr : Expr} {v : Nat} (order : ByteOrder) (ty : Ty) (haddr : HasWidth s addr v) :
    HasWidth s (.load order ty addr) ty.width
  | op {e : Expr} {op : Op} {args : List Expr} {widths : List Nat} {w : Nat}
    (he : e.operands? = some (op, args)) (hop : op.Takes widths w)
    (hlength : widths.length = args.length)
    (hargs : ∀ {v a}, (v, a) ∈ widths.zip args → HasWidth s a v) : HasWidth s e w
  /-- The arguments may have any widths. -/
  | ccall {callee : String} {args : List Expr} {helper : Helper} {widths : List Nat} (retTy : Ty)
    (hname : Helper.ofName? callee = some helper) (harity : args.length = helper.arity)
    (hlength : widths.length = args.length)
    (hargs : ∀ {v a}, (v, a) ∈ widths.zip args → HasWidth s a v) :
    HasWidth s (.ccall callee retTy args) retTy.width
  /-- The condition may have any width. -/
  | mux0X {cond expr0 exprX : Expr} {v w : Nat} (hcond : HasWidth s cond v)
    (hzero : HasWidth s expr0 w) (hother : HasWidth s exprX w) :
    HasWidth s (.mux0X cond expr0 exprX) w

/-- A path state holds well-formed bit-vectors. -/
structure HoldsBitVectors (s : PathState) : Prop where
  registers : s.registers.CellsWellFormed
  memory : s.memory.CellsWellFormed
  temps : ∀ tmp t, s.temp? tmp = some t → ∃ w, t.HasSort (.bitVec w)

theorem WellFormed.holdsBitVectors (hs : s.WellFormed) : s.HoldsBitVectors :=
  ⟨hs.registers, hs.memory, hs.temps⟩

/-! ## Single nodes -/

variable {cond : Term} {a l l0 lX : Lifted}

theorem hasSort_liftGet (hs : s.HoldsBitVectors) (offset : UInt64) (ty : Ty) :
    ∃ l, s.liftGet offset ty = .ok l ∧ l.WellSorted ty.width := by
  obtain ⟨t, hload, hsort⟩ := ByteStore.hasSort_load hs.registers (s.word offset.toNat) []
    ty.width_pos ty.width_le
  exact ⟨⟨t, []⟩, bind_eq_ok_iff.2 ⟨t, hload, rfl⟩, hsort, List.forall_mem_nil _⟩

theorem hasSort_const (literal : IR.Const) :
    literal.term.HasSort (.bitVec literal.ty.width) :=
  Fold.hasSort_lit literal.ty.width_pos literal.ty.width_le

theorem hasSort_liftLoad (hs : s.HoldsBitVectors) (order : ByteOrder) (ty : Ty)
    (ha : a.WellSorted v) : ∃ l, s.liftLoad order ty a = .ok l ∧ l.WellSorted ty.width := by
  obtain ⟨raw, hload, hraw⟩ := ByteStore.hasSort_load hs.memory a.value (s.constraints ++ a.needs)
    ty.width_pos ty.width_le
  obtain ⟨t, hfix, hsort⟩ := Fold.hasSort_fixOrder order hraw
  exact ⟨⟨t, a.needs⟩, bind_eq_ok_iff.2 ⟨raw, hload, fault_bind_eq_ok_iff.2 ⟨t, hfix, rfl⟩⟩, hsort,
    ha.needs⟩

theorem hasSort_needs {args : List Lifted} {widths : List Nat}
    (hargs : List.Forall₂ (fun v (u : Lifted) => u.WellSorted v) widths args) :
    (∀ t ∈ args.flatMap (·.needs), t.HasSort .bool) ∧
      List.Forall₂ (fun v t => t.HasSort (.bitVec v)) widths (args.map (·.value)) := by
  rw [List.forall₂_map_right_iff]
  refine ⟨fun t ht => ?_, hargs.imp fun _ _ hu => hu.value⟩
  obtain ⟨u, hu, ht⟩ := List.mem_flatMap.1 ht
  obtain ⟨i, hi, rfl⟩ := List.mem_iff_getElem.1 hu
  exact (hargs.get (hargs.length_eq ▸ hi) hi).needs t ht

theorem hasSort_liftOp {op : Op} {args : List Lifted} {widths : List Nat}
    (hop : op.Takes widths w)
    (hargs : List.Forall₂ (fun v (u : Lifted) => u.WellSorted v) widths args) :
    ∃ l, liftOp op args = .ok l ∧ l.WellSorted w := by
  obtain ⟨hneeds, hvalues⟩ := hasSort_needs hargs
  obtain ⟨t, happly, hsort⟩ := Op.hasSort_apply hop hvalues
  exact ⟨⟨t, _⟩, bind_eq_ok_iff.2 ⟨t, happly, rfl⟩, hsort, hneeds⟩

/-- A helper call succeeds if its operation is not a constant that is not
modeled. -/
theorem hasSort_liftCall {callee : String} {helper : Helper} {args : List Lifted}
    {widths : List Nat} (retTy : Ty) (hname : Helper.ofName? callee = some helper)
    (harity : args.length = helper.arity)
    (hargs : List.Forall₂ (fun v (u : Lifted) => u.WellSorted v) widths args) :
    (∃ l, liftCall policy callee retTy args = .ok l ∧ l.WellSorted retTy.width) ∨
      ∃ op, liftCall policy callee retTy args = .error (.unsupportedFlagThunk helper op) ∧
        helper.Unmodeled (args.map (·.value)) op := by
  obtain ⟨hneeds, hvalues⟩ := hasSort_needs hargs
  have hsorts : ∀ t ∈ args.map (·.value), ∃ w, t.HasSort (.bitVec w) := by
    intro t ht
    obtain ⟨i, hi, rfl⟩ := List.mem_iff_getElem.1 ht
    exact ⟨_, hvalues.get (hvalues.length_eq ▸ hi) hi⟩
  simp only [liftCall, hname]
  cases hcall : helper.call (args.map (·.value)) with
  | error cause =>
    obtain ⟨op, rfl, hop⟩ := Helper.unmodeled_of_call_error (by rwa [List.length_map]) hcall
    exact .inr ⟨op, rfl, hop⟩
  | ok result =>
    obtain ⟨hvalue, hcallNeeds⟩ := Helper.hasSort_call hsorts hcall
    have hresized := Fold.hasSort_resize hvalue retTy.width_pos retTy.width_le
    have hkept : ∀ t ∈ keptNeeds policy args, t.HasSort .bool := by
      intro t ht
      obtain ⟨u, hu, ht⟩ := mem_keptNeeds ht
      exact hneeds t (List.mem_flatMap.2 ⟨u, hu, ht⟩)
    refine .inl ⟨⟨_, keptNeeds policy args ++ result.2⟩, ?_, hresized,
      List.forall_mem_append.2 ⟨hkept, hcallNeeds⟩⟩
    exact fault_bind_eq_ok_iff.2 ⟨_, Build.resize_ok retTy.width_pos retTy.width_le, rfl⟩

theorem hasSort_liftMux (hc : cond.HasSort (.bitVec v)) (h0 : l0.WellSorted w)
    (hX : lX.WellSorted w) : ∃ l, liftMux cond l0 lX = .ok l ∧ l.WellSorted w := by
  have htest : (zeroTest cond).HasSort .bool := FlagBits.hasSort_test hc .eq 0
  have hnot := Fold.hasSort_not htest
  have hzero : ∀ t ∈ zeroTest cond :: l0.needs, t.HasSort .bool :=
    List.forall_mem_cons.2 ⟨htest, h0.needs⟩
  have hother : ∀ t ∈ Fold.not (zeroTest cond) :: lX.needs, t.HasSort .bool :=
    List.forall_mem_cons.2 ⟨hnot, hX.needs⟩
  have hboth : ∀ t ∈ [Fold.conj (zeroTest cond :: l0.needs),
      Fold.conj (Fold.not (zeroTest cond) :: lX.needs)], t.HasSort .bool :=
    List.forall_mem_cons.2
      ⟨Fold.hasSort_conj hzero, List.forall_mem_singleton.2 (Fold.hasSort_conj hother)⟩
  have hsame : cond.width = (Fold.lit 0 cond.width).width := rfl
  have htested : Build.compare .eq cond (Fold.lit 0 cond.width) = .ok (zeroTest cond) :=
    Build.compare_ok hsame
  refine ⟨⟨Fold.ite (zeroTest cond) l0.value lX.value, [muxNeed cond l0.needs lX.needs]⟩, ?_,
    Fold.hasSort_ite htest h0.value hX.value,
    List.forall_mem_singleton.2 (Fold.hasSort_disj hboth)⟩
  rw [liftMux, Build.lit_ok (hc.width_eq ▸ hc.width_pos) (hc.width_eq ▸ hc.width_le),
    fault_ok_bind, htested, fault_ok_bind, Build.not_ok htest.isBool, fault_ok_bind,
    Build.conj_ok fun t ht => (hzero t ht).isBool, fault_ok_bind,
    Build.conj_ok fun t ht => (hother t ht).isBool, fault_ok_bind,
    Build.disj_ok fun t ht => (hboth t ht).isBool, fault_ok_bind,
    Build.ite_ok htest.isBool (h0.value.sort_eq.trans hX.value.sort_eq.symm)]
  rfl

/-! ## Trees -/

/-- Inside a tree is a helper call whose operation is a constant that is not
modeled.  Its arguments lift. -/
def UnmodeledCall (policy : ArgumentPolicy) (s : PathState) (e : Expr) (helper : Helper)
    (op : Nat) : Prop :=
  ∃ callee retTy args vals, e.Within (.ccall callee retTy args) ∧
    Helper.ofName? callee = some helper ∧ s.liftAll policy args = .ok vals ∧
    helper.Unmodeled (vals.map (·.value)) op

theorem UnmodeledCall.child {a : Expr} {helper : Helper} {op : Nat}
    (h : UnmodeledCall policy s a helper op) (ha : a ∈ e.children) :
    UnmodeledCall policy s e helper op := by
  obtain ⟨callee, retTy, args, vals, hwithin, hrest⟩ := h
  exact ⟨callee, retTy, args, vals, .child ha hwithin, hrest⟩

/-- A tree lifts to a bit-vector of some width, or fails at a helper call that
is not modeled. -/
def LiftsOrUnmodeled (policy : ArgumentPolicy) (s : PathState) (e : Expr) (w : Nat) : Prop :=
  (∃ l, s.lift policy e = .ok l ∧ l.WellSorted w) ∨
    ∃ helper op, s.lift policy e = .error (.unsupportedFlagThunk helper op) ∧
      UnmodeledCall policy s e helper op

theorem liftAll_of_liftsOrUnmodeled {args : List Expr} {widths : List Nat}
    (h : List.Forall₂ (fun v a => LiftsOrUnmodeled policy s a v) widths args) :
    (∃ vals, s.liftAll policy args = .ok vals ∧
      List.Forall₂ (fun v (u : Lifted) => u.WellSorted v) widths vals) ∨
    ∃ helper op, s.liftAll policy args = .error (.unsupportedFlagThunk helper op) ∧
      ∃ a ∈ args, UnmodeledCall policy s a helper op := by
  induction h with
  | nil => exact .inl ⟨[], rfl, .nil⟩
  | @cons v a widths args ha _ ih =>
    rcases ha with ⟨l, hlift, hsort⟩ | ⟨helper, op, hlift, hcall⟩
    · rcases ih with ⟨vals, hlifts, hsorts⟩ | ⟨helper, op, hlifts, b, hb, hcall⟩
      · refine .inl ⟨l :: vals, ?_, .cons hsort hsorts⟩
        rw [liftAll, hlift, ok_bind, hlifts, ok_bind]
      · refine .inr ⟨helper, op, ?_, b, List.mem_cons_of_mem _ hb, hcall⟩
        rw [liftAll, hlift, ok_bind, hlifts]
        rfl
    · refine .inr ⟨helper, op, ?_, a, List.mem_cons_self, hcall⟩
      rw [liftAll, hlift]
      rfl

/-- A well-typed tree lifts to a well-formed bit-vector of its width and
well-formed booleans, or fails because a helper call in it has a constant
operation that is not modeled. -/
theorem lift_of_hasWidth (hs : s.HoldsBitVectors) (policy : ArgumentPolicy)
    (h : s.HasWidth e w) : LiftsOrUnmodeled policy s e w := by
  induction h with
  | get offset ty => exact .inl (hasSort_liftGet hs offset ty)
  | @rdTmp tmp value w htmp hw =>
    obtain ⟨v, hsort⟩ := hs.temps _ _ htmp
    obtain rfl : v = w := hsort.width_eq.symm.trans hw
    exact .inl ⟨⟨value, []⟩, by rw [lift, htmp], hsort, List.forall_mem_nil _⟩
  | const literal =>
    exact .inl ⟨⟨literal.term, []⟩, rfl, hasSort_const literal, List.forall_mem_nil _⟩
  | @load addr v order ty haddr ih =>
    rcases ih with ⟨a, hlift, hsort⟩ | ⟨helper, op, hlift, hcall⟩
    · obtain ⟨l, hload, hl⟩ := hasSort_liftLoad hs order ty hsort
      refine .inl ⟨l, ?_, hl⟩
      rw [lift, hlift]
      exact hload
    · refine .inr ⟨helper, op, ?_, hcall.child List.mem_cons_self⟩
      rw [lift, hlift]
      rfl
  | @op e op args widths w he hop hlength hargs ih =>
    have hchildren := (Expr.operands_of_operands? he).2
    rcases liftAll_of_liftsOrUnmodeled (List.forall₂_iff_zip.2 ⟨hlength, ih⟩) with
      ⟨vals, hlifts, hsorts⟩ | ⟨helper, op', hlifts, a, ha, hcall⟩
    · obtain ⟨l, hlift, hl⟩ := hasSort_liftOp hop hsorts
      refine .inl ⟨l, ?_, hl⟩
      rw [lift_op he, hlifts]
      exact hlift
    · refine .inr ⟨helper, op', ?_, hcall.child (hchildren ▸ ha)⟩
      rw [lift_op he, hlifts]
      rfl
  | @ccall callee args helper widths retTy hname harity hlength hargs ih =>
    rcases liftAll_of_liftsOrUnmodeled (List.forall₂_iff_zip.2 ⟨hlength, ih⟩) with
      ⟨vals, hlifts, hsorts⟩ | ⟨other, op, hlifts, a, ha, hcall⟩
    · have hvals : vals.length = helper.arity := by
        rw [← hsorts.length_eq, hlength, harity]
      rcases hasSort_liftCall retTy hname hvals hsorts with ⟨l, hlift, hl⟩ | ⟨op, hlift, hcall⟩
      · refine .inl ⟨l, ?_, hl⟩
        rw [lift, hlifts]
        exact hlift
      · refine .inr ⟨helper, op, ?_, callee, retTy, args, vals, .self _, hname, hlifts, hcall⟩
        rw [lift, hlifts]
        exact hlift
    · refine .inr ⟨other, op, ?_, hcall.child ha⟩
      rw [lift, hlifts]
      rfl
  | @mux0X cond expr0 exprX v w hcond hzero hother ihCond ihZero ihOther =>
    rcases ihCond with ⟨c, hc, hcSort⟩ | ⟨helper, op, hlift, hcall⟩
    · rcases ihZero with ⟨l0, h0, h0Sort⟩ | ⟨helper, op, hlift, hcall⟩
      · rcases ihOther with ⟨lX, hX, hXSort⟩ | ⟨helper, op, hlift, hcall⟩
        · obtain ⟨l, hmux, hl⟩ := hasSort_liftMux hcSort.value h0Sort hXSort
          refine .inl ⟨l, ?_, hl⟩
          rw [lift, hc, ok_bind, h0, ok_bind, hX, ok_bind, hmux]
        · refine .inr ⟨helper, op, ?_, hcall.child Expr.exprX_mem_children⟩
          rw [lift, hc, ok_bind, h0, ok_bind, hlift]
          rfl
      · refine .inr ⟨helper, op, ?_, hcall.child Expr.expr0_mem_children⟩
        rw [lift, hc, ok_bind, hlift]
        rfl
    · refine .inr ⟨helper, op, ?_, hcall.child Expr.cond_mem_children⟩
      rw [lift, hlift]
      rfl

/-! ### A sum of a choice and a call that is not modeled -/

/-- The tree that loads from a pinned address or calls a helper, plus the
carry of an operation that is not modeled. -/
def unmodeledTree : Expr :=
  .binop (.sized .add 32) pinnedTree (carryCall (.const (.u64 100)) .i32)

theorem hasWidth_pinned : pinnedPath.HasWidth (.rdTmp 0) 64 := .rdTmp rfl rfl

theorem hasWidth_carryCall {ccOp : Expr} (retTy : Ty) (hop : pinnedPath.HasWidth ccOp 64) :
    pinnedPath.HasWidth (carryCall ccOp retTy) retTy.width := by
  have hname : Helper.ofName? "amd64g_calculate_rflags_c" = some ⟨.amd64, .carry⟩ :=
    Helper.ofName?_name ⟨.amd64, .carry⟩
  have hconst (value : UInt64) : pinnedPath.HasWidth (.const (.u64 value)) 64 :=
    .const (.u64 value)
  have hlength : [64, 64, 64, 64].length =
      [ccOp, .rdTmp 0, .const (.u64 1), .const (.u64 0)].length := rfl
  refine .ccall retTy hname rfl hlength fun hmem => ?_
  simp only [List.zip_cons_cons, List.zip_nil_left, List.mem_cons, List.not_mem_nil, or_false,
    Prod.mk.injEq] at hmem
  rcases hmem with ⟨rfl, rfl⟩ | ⟨rfl, rfl⟩ | ⟨rfl, rfl⟩ | ⟨rfl, rfl⟩
  · exact hop
  · exact hasWidth_pinned
  · exact hconst 1
  · exact hconst 0

theorem hasWidth_pinnedTree : pinnedPath.HasWidth pinnedTree 32 := by
  have hop : pinnedPath.HasWidth (.rdTmp 1) 64 := .rdTmp rfl rfl
  exact .mux0X (hasWidth_carryCall .i64 hop) (.load .little .i32 hasWidth_pinned)
    (hasWidth_carryCall .i32 hasWidth_pinned)

theorem hasWidth_unmodeledTree : pinnedPath.HasWidth unmodeledTree 32 := by
  refine .op rfl (.sameWidth (by decide) ⟨by decide, by decide⟩) rfl fun hmem => ?_
  simp only [List.zip_cons_cons, List.zip_nil_left, List.mem_cons, List.not_mem_nil, or_false,
    Prod.mk.injEq] at hmem
  rcases hmem with ⟨rfl, rfl⟩ | ⟨rfl, rfl⟩
  · exact hasWidth_pinnedTree
  · exact hasWidth_carryCall .i32 (.const (.u64 100))

theorem lift_of_hasWidth_pinned :
    (∃ l, pinnedPath.lift .all pinnedTree = .ok l ∧ l.WellSorted 32) ∧
      ∃ helper op, pinnedPath.lift .first unmodeledTree =
          .error (.unsupportedFlagThunk helper op) ∧
        UnmodeledCall .first pinnedPath unmodeledTree helper op := by
  have hs := wellFormed_pinnedPath.holdsBitVectors
  constructor
  · have hlifts : (pinnedPath.lift .all pinnedTree).toOption.any fun _ => true := by
      decide +kernel
    obtain ⟨l, hlift, -⟩ := any_toOption_iff.1 hlifts
    refine (lift_of_hasWidth hs .all hasWidth_pinnedTree).resolve_right ?_
    rintro ⟨helper, op, herror, -⟩
    cases hlift.symm.trans herror
  · have hfails : (pinnedPath.lift .first unmodeledTree).toOption.all fun _ => false := by
      decide +kernel
    refine (lift_of_hasWidth hs .first hasWidth_unmodeledTree).resolve_left ?_
    rintro ⟨l, hlift, -⟩
    cases all_toOption_iff.1 hfails l hlift

end PathState

end SymLift
