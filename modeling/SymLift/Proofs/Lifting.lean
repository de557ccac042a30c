import SymLift.Proofs.Derivation
import SymLift.Proofs.Machine

/-!
# Lifting agrees with running

Under a model the lifted value of a tree is what the tree computes on the
machine that the path state is.

* `exists_evaluates_of_lifts`: a lifted value has a value, also in the arms
  that a model does not take.
* `exists_decides_of_lifts`: a side condition has a truth, and is true if the
  helper calls outside the conditions of choices are modeled.
* `resolved_eq`: an address that constraints pin is the address that a term
  evaluates to, if the constraints are true.
* `exists_run_of_lifts` goes by induction on the derivation, and
  `eval_lift_eq_run` puts them together.  The side conditions that a load looks at
  are true, so it does not matter which of them could pin its address.
-/

namespace SymLift

open Term

namespace PathState

open IR (Expr Op Ty)

variable {policy : ArgumentPolicy} {s : PathState} {m : Model} {e : Expr} {v : Lifted}

/-! ## Choices -/

/-- The test for zero that a choice makes. -/
def zeroTest (cond : Term) : Term := Fold.compare .eq cond (Fold.lit 0 cond.width)

/-- What a choice relies on. -/
def muxNeed (cond : Term) (zeroNeeds otherNeeds : List Term) : Term :=
  Fold.disj [Fold.conj (zeroTest cond :: zeroNeeds),
    Fold.conj (Fold.not (zeroTest cond) :: otherNeeds)]

theorem of_liftMux {cond : Term} {v0 vX : Lifted} (h : liftMux cond v0 vX = .ok v) :
    v0.value.sort = vX.value.sort ∧ v.value = Fold.ite (zeroTest cond) v0.value vX.value ∧
      v.needs = [muxNeed cond v0.needs vX.needs] := by
  obtain ⟨zero, hzero, h⟩ := fault_bind_eq_ok_iff.1 h
  obtain ⟨isZero, htest, h⟩ := fault_bind_eq_ok_iff.1 h
  obtain ⟨isOther, hnot, h⟩ := fault_bind_eq_ok_iff.1 h
  obtain ⟨first, hfirst, h⟩ := fault_bind_eq_ok_iff.1 h
  obtain ⟨second, hsecond, h⟩ := fault_bind_eq_ok_iff.1 h
  obtain ⟨need, hneed, h⟩ := fault_bind_eq_ok_iff.1 h
  obtain ⟨value, hvalue, h⟩ := fault_bind_eq_ok_iff.1 h
  obtain ⟨-, rfl⟩ := Build.of_lit hzero
  obtain ⟨-, rfl⟩ := Build.of_compare htest
  obtain rfl := Build.of_not hnot
  obtain rfl := Build.of_conj hfirst
  obtain rfl := Build.of_conj hsecond
  obtain rfl := Build.of_disj hneed
  obtain ⟨hsort, rfl⟩ := Build.of_ite hvalue
  cases h
  exact ⟨hsort, rfl, rfl⟩

theorem decides_zeroTest {cond : Term} {c : Bits} (h : cond.Evaluates m c) :
    (zeroTest cond).Decides m (decide (c.value.toNat = 0)) :=
  Fold.decides_eq_lit h.2 (Nat.two_pow_pos _)

/-- What a choice relies on has a truth: that of the side conditions of the
arm that is taken. -/
theorem exists_decides_muxNeed {cond : Term} {zeroNeeds otherNeeds : List Term} {b : Bool}
    (hb : (zeroTest cond).Decides m b) (hzero : ∀ t ∈ zeroNeeds, ∃ c, t.Decides m c)
    (hother : ∀ t ∈ otherNeeds, ∃ c, t.Decides m c) :
    ∃ c, (muxNeed cond zeroNeeds otherNeeds).Decides m c ∧
      (c = true ↔ ∀ t ∈ (if b then zeroNeeds else otherNeeds), t.Decides m true) := by
  have hnot := Fold.decides_not hb
  obtain ⟨f, hf⟩ := Fold.exists_decides_connect connects_conj
    (List.forall_mem_cons.2 ⟨⟨b, hb⟩, hzero⟩)
  obtain ⟨g, hg⟩ := Fold.exists_decides_connect connects_conj
    (List.forall_mem_cons.2 ⟨⟨!b, hnot⟩, hother⟩)
  obtain ⟨c, hc⟩ := Fold.exists_decides_connect connects_disj
    (List.forall_mem_cons.2 ⟨⟨f, hf⟩, List.forall_mem_singleton.2 ⟨g, hg⟩⟩)
  have hfirst : f = true ↔ b = true ∧ ∀ t ∈ zeroNeeds, t.Decides m true := by
    rw [← hf.iff_eq, Fold.decides_connect_neutral_iff connects_conj, List.forall_mem_cons,
      hb.iff_eq]
  have hsecond : g = true ↔ (!b) = true ∧ ∀ t ∈ otherNeeds, t.Decides m true := by
    rw [← hg.iff_eq, Fold.decides_connect_neutral_iff connects_conj, List.forall_mem_cons,
      hnot.iff_eq]
  have hneither : c = false ↔ f = false ∧ g = false := by
    rw [← hc.iff_eq, Fold.decides_connect_neutral_iff connects_disj, List.forall_mem_cons,
      List.forall_mem_singleton, hf.iff_eq, hg.iff_eq]
  refine ⟨c, hc, ?_⟩
  cases b with
  | true =>
    have hg' : g = false := Bool.eq_false_iff.2 fun h => Bool.false_ne_true (hsecond.1 h).1
    rw [if_pos rfl, ← Bool.not_eq_false, hneither, not_and, hg']
    simpa using hfirst
  | false =>
    have hf' : f = false := Bool.eq_false_iff.2 fun h => Bool.false_ne_true (hfirst.1 h).1
    rw [if_neg Bool.false_ne_true, ← Bool.not_eq_false, hneither, not_and, hf']
    simpa using hsecond

/-- A choice has the value of the arm that it takes. -/
theorem evaluates_mux {cond : Term} {v0 vX : Lifted} {c d : Bits} (h : liftMux cond v0 vX = .ok v)
    (hc : cond.Evaluates m c)
    (hd : (if c.value.toNat = 0 then v0.value else vX.value).Evaluates m d) :
    v.value.Evaluates m d := by
  obtain ⟨hsort, hvalue, -⟩ := of_liftMux h
  rw [hvalue]
  refine ⟨hd.1, Fold.denotes_ite (decides_zeroTest hc) hsort ?_⟩
  simpa only [decide_eq_true_iff] using hd.2

/-! ## Every lifted value has a value -/

/-- The values that operators are applied to. -/
theorem exists_values {vals : List Lifted} {args : List Expr}
    (h : List.Forall₂ (fun (_ : Expr) (u : Lifted) => ∃ c, u.value.Evaluates m c) args vals) :
    ∃ values, List.Forall₂ (Term.Evaluates m) (vals.map (·.value)) values := by
  induction h with
  | nil => exact ⟨[], .nil⟩
  | cons hfirst _ ih =>
    obtain ⟨c, hc⟩ := hfirst
    obtain ⟨cs, hcs⟩ := ih
    exact ⟨c :: cs, .cons hc hcs⟩

theorem of_liftOp {op : Op} {vals : List Lifted} (h : liftOp op vals = .ok v) :
    op.apply (vals.map (·.value)) = .ok v.value ∧ v.needs = vals.flatMap (·.needs) := by
  obtain ⟨t, happly, h⟩ := bind_eq_ok_iff.1 h
  cases h
  exact ⟨happly, rfl⟩

theorem of_liftCall {callee : String} {retTy : Ty} {vals : List Lifted}
    (h : liftCall policy callee retTy vals = .ok v) :
    ∃ helper value needs, Helper.ofName? callee = some helper ∧
      helper.call (vals.map (·.value)) = .ok (value, needs) ∧
      v.value = Fold.resize retTy.width value ∧ v.needs = keptNeeds policy vals ++ needs := by
  unfold liftCall at h
  split at h
  · cases h
  · rename_i helper hname
    obtain ⟨⟨value, needs⟩, hcall, h⟩ := bind_eq_ok_iff.1 h
    obtain ⟨t, hresize, h⟩ := fault_bind_eq_ok_iff.1 h
    cases h
    exact ⟨helper, value, needs, hname, hcall, (Build.of_resize hresize).symm, rfl⟩

theorem evaluates_resize {t : Term} {w : Nat} {x : BitVec w} (retTy : Ty) (h : t.Denotes m x) :
    (Fold.resize retTy.width t).Evaluates m ⟨retTy.width, x.setWidth _⟩ :=
  ⟨retTy.width_pos, Fold.denotes_resize h retTy.width_pos retTy.width_le⟩

/-- A lifted value has a value. -/
theorem exists_evaluates_of_lifts (hs : s.WellFormed) (hm : m.Total) (h : Lifts policy s e v)
    (hwide : NoWide policy s e) : ∃ c, v.value.Evaluates m c := by
  induction h with
  | get h => exact ⟨_, evaluates_liftGet hs hm h⟩
  | rdTmp h =>
    obtain ⟨c, -, hc⟩ := exists_evaluates_temp hs hm h
    exact ⟨c, hc⟩
  | const literal => exact ⟨_, evaluates_const literal⟩
  | @op e op args vals v he hlength hargs h ih =>
    have hchildren := (Expr.operands_of_operands? he).2
    obtain ⟨values, hvalues⟩ := exists_values (forall₂_of_lifts hlength fun hmem ha =>
      ih hmem (hwide.child (hchildren ▸ ha)))
    have hlift := lift_of_lifts (.op he hlength hargs h)
    obtain ⟨c, -, hc⟩ := IR.evaluates_apply hvalues (hwide e (.self e) v hlift) (of_liftOp h).1
    exact ⟨c, hc⟩
  | @load order ty addr a v haddr h ih =>
    cases hplace : ByteStore.resolveAddress? a.value (s.constraints ++ a.needs) with
    | none => exact exists_evaluates_unresolved hm hplace h
    | some place => exact ⟨_, evaluates_liftLoad hs hm hplace h⟩
  | @ccall callee retTy args vals v hlength hargs h ih =>
    obtain ⟨values, hvalues⟩ := exists_values (forall₂_of_lifts hlength fun hmem ha =>
      ih hmem (hwide.child ha))
    obtain ⟨helper, value, needs, -, hcall, hvalue, -⟩ := of_liftCall h
    obtain ⟨x, hx, -⟩ := Helper.exists_denotes_call hvalues hcall
    exact ⟨_, hvalue ▸ evaluates_resize retTy hx⟩
  | @mux0X cond expr0 exprX c v0 vX v hcond hzero hother h ihCond ihZero ihOther =>
    -- The other arm is lifted as well, but only the sort of its value matters.
    obtain ⟨x, hx⟩ := ihCond (hwide.child Expr.cond_mem_children)
    obtain ⟨y, hy⟩ := ihZero (hwide.child Expr.expr0_mem_children)
    obtain ⟨z, hz⟩ := ihOther (hwide.child Expr.exprX_mem_children)
    by_cases hk : x.value.toNat = 0
    · exact ⟨y, evaluates_mux h hx (by rwa [if_pos hk])⟩
    · exact ⟨z, evaluates_mux h hx (by rwa [if_neg hk])⟩

/-! ## Every side condition has a truth -/

theorem mem_keptNeeds {vals : List Lifted} {need : Term} (h : need ∈ keptNeeds policy vals) :
    ∃ u ∈ vals, need ∈ u.needs := by
  cases policy with
  | first =>
    obtain ⟨u, hu, hneed⟩ := List.mem_flatMap.1 h
    exact ⟨u, List.mem_of_mem_take hu, hneed⟩
  | all => exact List.mem_flatMap.1 h

/-- A side condition has a truth, and is true if the helper calls that a
model evaluates outside the conditions of choices are modeled. -/
theorem exists_decides_of_lifts (hs : s.WellFormed) (hm : m.Total) (h : Lifts policy s e v)
    (hwide : NoWide policy s e) :
    ∀ need ∈ v.needs, ∃ b, need.Decides m b ∧ (CallsModeled policy s m false e → b = true) := by
  induction h with
  | get h =>
    rw [needs_liftGet h]
    exact fun need hneed => absurd hneed List.not_mem_nil
  | rdTmp | const => exact fun need hneed => absurd hneed List.not_mem_nil
  | @op e op args vals v he hlength hargs h ih =>
    obtain ⟨hoperands, hchildren⟩ := Expr.operands_of_operands? he
    rw [(of_liftOp h).2]
    intro need hneed
    obtain ⟨u, hu, hneed⟩ := List.mem_flatMap.1 hneed
    obtain ⟨a, hmem⟩ := exists_zip_of_mem_right hlength hu
    have ha := (List.of_mem_zip hmem).1
    obtain ⟨b, hb, hmodeled⟩ := ih hmem (hwide.child (hchildren ▸ ha)) need hneed
    exact ⟨b, hb, fun hcalls => hmodeled (hcalls.operand (hoperands ▸ ha))⟩
  | @load order ty addr a v haddr h ih =>
    rw [needs_liftLoad h]
    intro need hneed
    obtain ⟨b, hb, hmodeled⟩ := ih (hwide.child List.mem_cons_self) need hneed
    exact ⟨b, hb, fun hcalls => hmodeled (hcalls.operand List.mem_cons_self)⟩
  | @ccall callee retTy args vals v hlength hargs h ih =>
    obtain ⟨helper, value, needs, hname, hcall, -, hneeds⟩ := of_liftCall h
    obtain ⟨values, hvalues⟩ := exists_values (forall₂_of_lifts hlength fun hmem ha =>
      exists_evaluates_of_lifts hs hm (hargs hmem) (hwide.child ha))
    rw [hneeds]
    intro need hneed
    rcases List.mem_append.1 hneed with hneed | hneed
    · obtain ⟨u, hu, hneed⟩ := mem_keptNeeds hneed
      obtain ⟨a, hmem⟩ := exists_zip_of_mem_right hlength hu
      have ha := (List.of_mem_zip hmem).1
      obtain ⟨b, hb, hmodeled⟩ := ih hmem (hwide.child ha) need hneed
      exact ⟨b, hb, fun hcalls => hmodeled (hcalls.operand ha)⟩
    · obtain ⟨b, hb, hmodeled⟩ := Helper.exists_decides_call hvalues hcall need hneed
      exact ⟨b, hb, fun hcalls => hmodeled
        (hcalls callee retTy args (.self _) helper vals hname (liftAll_of_lifts hlength hargs))⟩
  | @mux0X cond expr0 exprX c v0 vX v hcond hzero hother h ihCond ihZero ihOther =>
    have hneeds0 := ihZero (hwide.child Expr.expr0_mem_children)
    have hneedsX := ihOther (hwide.child Expr.exprX_mem_children)
    obtain ⟨x, hx⟩ := exists_evaluates_of_lifts hs hm hcond (hwide.child Expr.cond_mem_children)
    obtain ⟨b, hb, hiff⟩ := exists_decides_muxNeed (decides_zeroTest hx)
      (fun t ht => (hneeds0 t ht).imp fun _ h => h.1)
      (fun t ht => (hneedsX t ht).imp fun _ h => h.1)
    -- Nothing is asked of the condition: its own side conditions are dropped.
    rw [(of_liftMux h).2.2, List.forall_mem_singleton]
    refine ⟨b, hb, fun hcalls => hiff.2 ?_⟩
    have hlift := lift_of_lifts hcond
    by_cases hk : x.value.toNat = 0
    · rw [if_pos (decide_eq_true hk)]
      intro t ht
      obtain ⟨d, hd, hmodeled⟩ := hneeds0 t ht
      rw [hmodeled (hcalls.zeroArm hlift (hk ▸ hx.2.hasNumber))] at hd
      exact hd
    · rw [if_neg (by simpa using hk)]
      intro t ht
      obtain ⟨d, hd, hmodeled⟩ := hneedsX t ht
      rw [hmodeled (hcalls.otherArm hlift hx.2.hasNumber hk)] at hd
      exact hd

/-! ## The value is that of the machine -/

/-- The values of operands are those of the machine. -/
theorem exists_runAll {vals : List Lifted} {args : List Expr}
    (h : List.Forall₂ (fun a u => ∃ c, (s.machine m).run a = some c ∧ u.value.Evaluates m c)
      args vals) :
    ∃ values, (s.machine m).runAll args = some values ∧
      List.Forall₂ (Term.Evaluates m) (vals.map (·.value)) values := by
  induction h with
  | nil => exact ⟨[], rfl, .nil⟩
  | cons hfirst _ ih =>
    obtain ⟨c, hrun, hc⟩ := hfirst
    obtain ⟨cs, hruns, hcs⟩ := ih
    refine ⟨c :: cs, ?_, .cons hc hcs⟩
    rw [Machine.runAll, hrun, hruns]
    rfl

/-- An address that was found is the one that the machine computes. -/
theorem resolved_eq (hconstraints : ∀ t ∈ s.constraints, t.Decides m true) {a : Lifted} {c : Bits}
    (hneeds : ∀ t ∈ a.needs, t.Decides m true) (ha : a.value.Evaluates m c) {place : Nat}
    (h : ByteStore.resolveAddress? a.value (s.constraints ++ a.needs) = some place) :
    BitVec.ofNat 64 place = c.value.setWidth 64 := by
  have hknown : ∀ t ∈ s.constraints ++ a.needs, t.Decides m true :=
    List.forall_mem_append.2 ⟨hconstraints, hneeds⟩
  rw [(ByteStore.hasNumber_of_resolveAddress? hknown h).unique ha.2.hasNumber, BitVec.ofNat_toNat]

/-- A lifted value has the value that the machine computes. -/
theorem exists_run_of_lifts (hs : s.WellFormed) (hm : m.Total)
    (hconstraints : ∀ t ∈ s.constraints, t.Decides m true) (h : Lifts policy s e v)
    (hwide : NoWide policy s e) (hloads : LoadsResolve policy s e)
    (hcalls : CallsModeled policy s m true e) :
    ∃ c, (s.machine m).run e = some c ∧ v.value.Evaluates m c := by
  induction h with
  | get h => exact ⟨_, rfl, evaluates_liftGet hs hm h⟩
  | rdTmp h => exact exists_evaluates_temp hs hm h
  | const literal => exact ⟨_, rfl, evaluates_const literal⟩
  | @op e op args vals v he hlength hargs h ih =>
    obtain ⟨hoperands, hchildren⟩ := Expr.operands_of_operands? he
    obtain ⟨values, hruns, hvalues⟩ := exists_runAll (forall₂_of_lifts hlength fun hmem ha =>
      ih hmem (hwide.child (hchildren ▸ ha)) (hloads.child (hchildren ▸ ha))
        (hcalls.operand (hoperands ▸ ha)))
    have hlift := lift_of_lifts (.op he hlength hargs h)
    obtain ⟨c, hcompute, hc⟩ :=
      IR.evaluates_apply hvalues (hwide e (.self e) v hlift) (of_liftOp h).1
    refine ⟨c, ?_, hc⟩
    rw [Machine.run_op he, hruns]
    exact hcompute
  | @load order ty addr a v haddr h ih =>
    have hmem : addr ∈ (Expr.load order ty addr).children := List.mem_cons_self
    have hwide' := hwide.child hmem
    have hcalls' := hcalls.operand hmem
    obtain ⟨c, hrun, hc⟩ := ih hwide' (hloads.child hmem) hcalls'
    obtain ⟨place, hplace⟩ := Option.isSome_iff_exists.1
      (hloads order ty addr (.self _) a (lift_of_lifts haddr))
    -- A side condition of the address may be what pins it.  It is true, as the
    -- constraints on the path are, so it pins the right place.
    have hneeds : ∀ t ∈ a.needs, t.Decides m true := by
      intro t ht
      obtain ⟨b, hb, hmodeled⟩ := exists_decides_of_lifts hs hm haddr hwide' t ht
      rwa [hmodeled hcalls'.arms] at hb
    refine ⟨_, ?_, evaluates_liftLoad hs hm hplace h⟩
    rw [Machine.run, hrun, resolved_eq hconstraints hneeds hc hplace]
    rfl
  | @ccall callee retTy args vals v hlength hargs h ih =>
    obtain ⟨values, hruns, hvalues⟩ := exists_runAll (forall₂_of_lifts hlength fun hmem ha =>
      ih hmem (hwide.child ha) (hloads.child ha) (hcalls.operand ha))
    obtain ⟨helper, value, needs, hname, hcall, hvalue, -⟩ := of_liftCall h
    obtain ⟨x, hx, hcompute⟩ := Helper.exists_denotes_call hvalues hcall
    have hmodeled := hcalls callee retTy args (.self _) helper vals hname
      (liftAll_of_lifts hlength hargs)
    refine ⟨_, ?_, hvalue ▸ evaluates_resize retTy hx⟩
    rw [Machine.run, hname, hruns]
    simp only [Option.bind_eq_bind, Option.bind_some, hcompute hmodeled]
  | @mux0X cond expr0 exprX c v0 vX v hcond hzero hother h ihCond ihZero ihOther =>
    obtain ⟨x, hrun, hx⟩ := ihCond (hwide.child Expr.cond_mem_children)
      (hloads.child Expr.cond_mem_children) hcalls.condition
    have hlift := lift_of_lifts hcond
    rw [Machine.run, hrun]
    by_cases hk : x.value.toNat = 0
    · obtain ⟨y, hrun0, hy⟩ := ihZero (hwide.child Expr.expr0_mem_children)
        (hloads.child Expr.expr0_mem_children) (hcalls.zeroArm hlift (hk ▸ hx.2.hasNumber))
      refine ⟨y, ?_, evaluates_mux h hx (by rwa [if_pos hk])⟩
      simp only [Option.bind_eq_bind, Option.bind_some, if_pos hk, hrun0]
    · obtain ⟨z, hrunX, hz⟩ := ihOther (hwide.child Expr.exprX_mem_children)
        (hloads.child Expr.exprX_mem_children) (hcalls.otherArm hlift hx.2.hasNumber hk)
      refine ⟨z, ?_, evaluates_mux h hx (by rwa [if_neg hk])⟩
      simp only [Option.bind_eq_bind, Option.bind_some, if_neg hk, hrunX]

/-- Lifting agrees with running: a tree that is lifted has a value on the
machine, and its lifted value evaluates to it. -/
theorem eval_lift_eq_run (hs : s.WellFormed) (hm : m.Total)
    (hconstraints : ∀ t ∈ s.constraints, t.Decides m true) (h : s.lift policy e = .ok v)
    (hwide : NoWide policy s e) (hloads : LoadsResolve policy s e)
    (hcalls : CallsModeled policy s m true e) :
    ∃ c, (s.machine m).run e = some c ∧ v.value.eval m = .ok (.word c.value.toNat c.width) := by
  obtain ⟨c, hrun, hc⟩ :=
    exists_run_of_lifts hs hm hconstraints (lifts_of_lift h) hwide hloads hcalls
  exact ⟨c, hrun, hc.2.eval_eq⟩

/-! ### A load at a pinned address -/

/-- A path that pins an address near the end of the address space. -/
def pinnedPath : PathState :=
  { (start .amd64).bindTemp 0 (.var "p" 64) |>.bindTemp 1 (.var "op" 64) with
    constraints := [.compare .eq (.var "p" 64) (.const (2 ^ 64 - 2) 64)] }

/-- The carry of an operation on the pinned address and one. -/
def carryCall (ccOp : Expr) (retTy : Ty) : Expr :=
  .ccall "amd64g_calculate_rflags_c" retTy [ccOp, .rdTmp 0, .const (.u64 1), .const (.u64 0)]

/-- A load at the pinned address if an addition has no carry, and otherwise
the carry of an operation that is not modeled. -/
def pinnedTree : Expr :=
  .mux0X (carryCall (.rdTmp 1) .i64) (.load .little .i32 (.rdTmp 0)) (carryCall (.rdTmp 0) .i32)

/-- The operation is an addition of bytes. -/
def pinnedModel : Model := fun name => some (if name = "p" then 2 ^ 64 - 2 else 1)

theorem wellFormed_pinnedPath : pinnedPath.WellFormed := by
  have hsort (name : String) : (Term.var name 64).HasSort (.bitVec 64) :=
    .var name (by decide) (by decide)
  have hbound := ((wellFormed_start .amd64).bindTemp (hsort "p") 0).bindTemp (hsort "op") 1
  exact ⟨hbound.registers, hbound.memory, hbound.registerOrder, hbound.memoryOrder, hbound.temps⟩

theorem callsModeled_carryCall (retTy : Ty) (conditions : Bool) :
    CallsModeled .all pinnedPath pinnedModel conditions (carryCall (.rdTmp 1) retTy) := by
  intro callee retTy' args hreach helper vals hname hvals
  have hmem := hreach.within.mem_of_closed
    [carryCall (.rdTmp 1) retTy, .rdTmp 1, .rdTmp 0, .const (.u64 1), .const (.u64 0)]
    (by cases retTy <;> decide) List.mem_cons_self
  have hcall : callee = "amd64g_calculate_rflags_c" ∧ retTy' = retTy ∧
      args = [.rdTmp 1, .rdTmp 0, .const (.u64 1), .const (.u64 0)] := by
    simpa [carryCall] using hmem
  obtain ⟨rfl, rfl, rfl⟩ := hcall
  obtain rfl : helper = ⟨.amd64, .carry⟩ :=
    (Option.some.inj ((Helper.ofName?_name ⟨.amd64, .carry⟩).symm.trans hname)).symm
  cases hvals
  exact ⟨1, ⟨64, rfl⟩, rfl⟩

set_option maxRecDepth 2048 in
theorem callsModeled_pinnedTree :
    CallsModeled .all pinnedPath pinnedModel true pinnedTree := by
  intro callee retTy args hreach
  cases hreach with
  | operand ha => exact absurd ha List.not_mem_nil
  | condition _ hcond => exact callsModeled_carryCall _ _ callee retTy args hcond
  | zeroArm _ _ harm =>
    have hmem := harm.within.mem_of_closed [.load .little .i32 (.rdTmp 0), .rdTmp 0]
      (by decide) List.mem_cons_self
    simp at hmem
  | @otherArm _ _ _ _ c k hlift hk hne =>
    have hzero : (pinnedPath.lift .all (carryCall (.rdTmp 1) .i64)).toOption.all
        (·.value.eval pinnedModel = .ok (.word 0 64)) := by
      rfl
    have hnumber := of_decide_eq_true (all_toOption_iff.1 hzero c hlift)
    exact absurd (hk.unique ⟨64, hnumber⟩) hne

/-- The subtrees of the tree. -/
def pinnedSubtrees : List Expr :=
  [pinnedTree, carryCall (.rdTmp 1) .i64, .load .little .i32 (.rdTmp 0),
    carryCall (.rdTmp 0) .i32, .rdTmp 0, .rdTmp 1, .const (.u64 1), .const (.u64 0)]

theorem pinnedSubtrees_closed : ∀ t ∈ pinnedSubtrees, ∀ a ∈ t.children, a ∈ pinnedSubtrees := by
  decide

set_option maxRecDepth 2048 in
theorem noWide_pinnedTree : NoWide .all pinnedPath pinnedTree :=
  .of_closed pinnedSubtrees pinnedSubtrees_closed (by decide) List.mem_cons_self

theorem loadsResolve_pinnedTree : LoadsResolve .all pinnedPath pinnedTree := by
  intro order ty addr hd a ha
  have hmem := hd.mem_of_closed pinnedSubtrees pinnedSubtrees_closed List.mem_cons_self
  have hload : order = .little ∧ ty = .i32 ∧ addr = .rdTmp 0 := by
    simpa [pinnedSubtrees, pinnedTree, carryCall] using hmem
  obtain ⟨rfl, rfl, rfl⟩ := hload
  have hplace : (pinnedPath.lift .all (.rdTmp 0)).toOption.all fun a =>
      (ByteStore.resolveAddress? a.value (pinnedPath.constraints ++ a.needs)).isSome := by
    rfl
  exact all_toOption_iff.1 hplace a ha

theorem eval_lift_eq_run_pinned :
    ∃ v c, pinnedPath.lift .all pinnedTree = .ok v ∧
      (pinnedPath.machine pinnedModel).run pinnedTree = some c ∧
        v.value.eval pinnedModel = .ok (.word c.value.toNat c.width) := by
  have hlifts : (pinnedPath.lift .all pinnedTree).toOption.any fun _ => true := by decide +kernel
  obtain ⟨v, hlift, -⟩ := any_toOption_iff.1 hlifts
  have hm : pinnedModel.Total := fun name => ⟨_, rfl⟩
  have hconstraints : ∀ t ∈ pinnedPath.constraints, t.Decides pinnedModel true := by
    unfold Decides
    decide +kernel
  obtain ⟨c, hrun, heval⟩ := eval_lift_eq_run wellFormed_pinnedPath hm hconstraints hlift
    noWide_pinnedTree loadsResolve_pinnedTree callsModeled_pinnedTree
  exact ⟨v, c, hlift, hrun, heval⟩

end PathState

end SymLift
