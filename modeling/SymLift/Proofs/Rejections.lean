import SymLift.Proofs.OperatorChecks
import SymLift.Proofs.Typing

/-!
# What lifting rejects

A tree that is lifted is understood to its last node, and a tree that is
not lifted fails at its first node that is not understood.

* `Expr.postorder` lists the nodes that are lifted, children before their
  parent and from left to right.
* `PathState.Complains` says by rules what is wrong with a node, as
  `Op.Refuses` does for its operator, and `PathState.Understood` what a node
  needs to be lifted.
* `lift_eq_bind_liftNode`: a node is judged after all its children are lifted.
* `understood_of_lift` and `complains_of_liftNode`: what it means for one node
  to succeed and to fail.
* `exists_first_failure`: a tree fails at a node before which all others
  are lifted, by induction on the tree.
* `lift_rejects_in_order` puts these together.
-/

namespace SymLift

namespace IR

/-! ## Trees -/

namespace Expr

variable {e d : Expr}

mutual
/-- The nodes of a tree that are lifted.  The children of a node come before
it, from left to right.  The index of a register array is not among them. -/
def postorder (e : Expr) : List Expr :=
  match e with
  | .binder _ | .get .. | .getI .. | .rdTmp _ | .const _ => [e]
  | .unop _ arg | .load _ _ arg => arg.postorder ++ [e]
  | .binop _ arg1 arg2 => arg1.postorder ++ arg2.postorder ++ [e]
  | .triop _ arg1 arg2 arg3 | .mux0X arg1 arg2 arg3 =>
    arg1.postorder ++ arg2.postorder ++ arg3.postorder ++ [e]
  | .qop _ arg1 arg2 arg3 arg4 =>
    arg1.postorder ++ arg2.postorder ++ arg3.postorder ++ arg4.postorder ++ [e]
  | .ccall _ _ args => postorderAll args ++ [e]

/-- The nodes of trees, one tree after the other. -/
def postorderAll : List Expr → List Expr
  | [] => []
  | e :: es => e.postorder ++ postorderAll es
end

theorem postorderAll_eq (es : List Expr) : postorderAll es = es.flatMap postorder := by
  induction es with
  | nil => rfl
  | cons e es ih => rw [postorderAll, List.flatMap_cons, ih]

theorem postorder_eq (e : Expr) : e.postorder = e.children.flatMap postorder ++ [e] := by
  cases e <;>
    simp [postorder, postorderAll_eq, children, operands, operands?]

/-- The subtrees of a node, lifted or not. -/
def parts (e : Expr) : List Expr :=
  match e with
  | .getI _ index _ => [index]
  | e => e.children

/-- A tree has another one somewhere inside it, or is that one. -/
inductive Contains : Expr → Expr → Prop where
  | self (e : Expr) : Contains e e
  | part {e a d : Expr} (h : a ∈ e.parts) (ha : Contains a d) : Contains e d

/-- A tree without register arrays is lifted with all its subtrees. -/
theorem Contains.within (h : e.Contains d) (hlifted : ∀ d, e.Within d → d.kind ≠ .getI) :
    e.Within d := by
  induction h with
  | self e => exact .self e
  | @part e a d ha _ ih =>
    have hchild : a ∈ e.children := by
      cases e with
      | getI => exact absurd rfl (hlifted _ (.self _))
      | _ => exact ha
    exact .child hchild (ih fun d hd => hlifted d (.child hchild hd))

/-- The nodes that are listed are the subtrees that are lifted. -/
theorem mem_postorder_iff : d ∈ e.postorder ↔ e.Within d := by
  induction e using induction_children with
  | node e ih =>
    rw [postorder_eq, List.mem_append, List.mem_singleton, List.mem_flatMap]
    constructor
    · rintro (⟨a, ha, hd⟩ | rfl)
      · exact .child ha ((ih a ha).1 hd)
      · exact .self d
    · rintro (_ | ⟨ha, hd⟩)
      · exact .inr rfl
      · exact .inl ⟨_, ha, (ih _ ha).2 hd⟩

end Expr

end IR

namespace PathState

open IR (Expr Op Ty)

variable {policy : ArgumentPolicy} {s : PathState} {e d : Expr} {vals : List Lifted} {v : Lifted}
  {f : Failure}

/-! ## One node -/

/-- What a node needs to be lifted. -/
def Understood (s : PathState) : Expr → Prop
  | .binder _ | .getI .. | .triop .. | .qop .. => False
  | .unop op _ => op.arity = 1 ∧ op.FitsWidths
  | .binop op _ _ => op.arity = 2 ∧ op.FitsWidths
  | .rdTmp tmp => (s.temp? tmp.toNat).isSome
  | .ccall callee _ args =>
    ∃ helper, Helper.ofName? callee = some helper ∧ args.length = helper.arity
  | .get .. | .const _ | .load .. | .mux0X .. => True

/-- What is wrong with a node.  A call is looked up by its name, then its
arguments are counted, and then the operation of the thunk is looked at. -/
inductive Complains (policy : ArgumentPolicy) (s : PathState) : Expr → Failure → Prop where
  | binder (index : UInt32) :
    Complains policy s (.binder index) (.unsupportedExpressionKind .binder)
  | getI (registers : IR.RegArray) (index : Expr) (bias : Int32) :
    Complains policy s (.getI registers index bias) (.unsupportedExpressionKind .getI)
  | rdTmp {tmp : UInt32} (h : s.temp? tmp.toNat = none) :
    Complains policy s (.rdTmp tmp) (.unboundTemporary tmp)
  | op {e : Expr} {op : Op} {args : List Expr} {f : Failure} (he : e.operands? = some (op, args))
    (h : op.Refuses args.length f) : Complains policy s e f
  | unknownHelper {callee : String} (retTy : Ty) (args : List Expr)
    (hname : Helper.ofName? callee = none) :
    Complains policy s (.ccall callee retTy args) (.unsupportedCallHelper callee)
  | argumentCount {callee : String} (retTy : Ty) {args : List Expr} {helper : Helper}
    (hname : Helper.ofName? callee = some helper) (hcount : args.length ≠ helper.arity) :
    Complains policy s (.ccall callee retTy args)
      (.callHelperArity helper helper.arity args.length)
  | flagThunk {callee : String} (retTy : Ty) {args : List Expr} {helper : Helper}
    {vals : List Lifted} {op : Nat} (hname : Helper.ofName? callee = some helper)
    (hcount : args.length = helper.arity) (hargs : s.liftAll policy args = .ok vals)
    (hop : helper.Unmodeled (vals.map (·.value)) op) :
    Complains policy s (.ccall callee retTy args) (.unsupportedFlagThunk helper op)

/-- The value of a node, given those of its children. -/
def liftNode (policy : ArgumentPolicy) (s : PathState) (e : Expr) (vals : List Lifted) :
    Except Failure Lifted :=
  match e, vals with
  | .load order ty _, [addr] => s.liftLoad order ty addr
  | .ccall callee retTy _, vals => liftCall policy callee retTy vals
  | .mux0X .., [cond, zeroCase, otherCase] => liftMux cond.value zeroCase otherCase
  | e, vals =>
    match e.operands? with
    | some (op, _) => liftOp op vals
    | none => s.lift policy e

/-- A node is judged after all its children are lifted. -/
theorem lift_eq_bind_liftNode (policy : ArgumentPolicy) (s : PathState) (e : Expr) :
    s.lift policy e = s.liftAll policy e.children >>= s.liftNode policy e := by
  cases e with
  | unop | binop | triop | qop => exact lift_op rfl
  | binder | get | getI | rdTmp | const => rfl
  | ccall => rfl
  | load order ty addr =>
    have hchildren : (Expr.load order ty addr).children = [addr] := rfl
    rw [hchildren, lift]
    simp only [liftAll, bind_assoc]
    rfl
  | mux0X cond expr0 exprX =>
    rw [lift, Expr.children]
    simp only [liftAll, bind_assoc]
    rfl

/-! ## A node that is lifted -/

theorem exists_lift_of_mem_children (h : s.lift policy e = .ok v) {a : Expr}
    (ha : a ∈ e.children) : ∃ u, s.lift policy a = .ok u := by
  rw [lift_eq_bind_liftNode] at h
  obtain ⟨vals, hvals, -⟩ := bind_eq_ok_iff.1 h
  obtain ⟨hlength, hzip⟩ := List.forall₂_iff_zip.1 (liftAll_eq_ok_iff.1 hvals)
  obtain ⟨u, hmem⟩ := exists_zip_of_mem_left hlength ha
  exact ⟨u, hzip hmem⟩

/-- If a tree is lifted, so are its subtrees. -/
theorem exists_lift_of_within (hd : e.Within d) (h : s.lift policy e = .ok v) :
    ∃ u, s.lift policy d = .ok u := by
  induction hd generalizing v with
  | self e => exact ⟨v, h⟩
  | child ha _ ih =>
    obtain ⟨u, hu⟩ := exists_lift_of_mem_children h ha
    exact ih hu

/-- A call has as many arguments as the helper takes if one of them holds the
operation. -/
theorem length_eq_of_operation? {α : Type} {helper : Helper} {args : List α} {ccOp : α}
    (h : helper.operation? args = some ccOp) : args.length = helper.arity := by
  unfold Helper.operation? at h
  split at h <;> simp_all [Helper.arity]

theorem length_eq_of_call {helper : Helper} {args : List Term} {r : Term × List Term}
    (h : helper.call args = .ok r) : args.length = helper.arity := by
  obtain ⟨value, needs⟩ := r
  rw [Helper.call_eq] at h
  obtain ⟨_, _, _, _, hop, -⟩ := Helper.operation_of_callWords h
  simpa using length_eq_of_operation? hop

/-- A node that is lifted is understood. -/
theorem understood_of_lift (h : s.lift policy e = .ok v) : s.Understood e := by
  have hlifts := lifts_of_lift h
  cases hlifts with
  | get | const | load | mux0X => trivial
  | rdTmp htmp => exact Option.isSome_iff_exists.2 ⟨_, htmp⟩
  | op he hlength _ hop =>
    obtain ⟨harity, hfits⟩ := Op.fits_of_apply (of_liftOp hop).1
    rw [List.length_map, ← hlength] at harity
    cases e with
    | unop | binop =>
      cases he
      exact ⟨harity, hfits⟩
    | triop | qop =>
      cases he
      rcases Op.arity_cases _ with hone | htwo
      · cases harity.symm.trans hone
      · cases harity.symm.trans htwo
    | _ => cases he
  | ccall hlength _ hcall =>
    obtain ⟨helper, value, needs, hname, hcall, -⟩ := of_liftCall hcall
    refine ⟨helper, hname, hlength.trans ?_⟩
    simpa using length_eq_of_call hcall

/-! ## A node that is not lifted -/

theorem onlyFaults_load (store : ByteStore) (addr : Term) (ty : Ty) (known : List Term) :
    OnlyFaults (store.load addr ty.width known) := by
  have hwidth : ¬Word.maxBits < ty.width := Nat.not_lt.2 ty.width_le
  rw [ByteStore.load, if_neg hwidth]
  split
  · rw [ByteStore.loadConcrete, if_neg hwidth]
    exact OnlyFaults.ofFault _
  · exact OnlyFaults.ofFault _

theorem onlyFaults_liftGet (offset : UInt64) (ty : Ty) : OnlyFaults (s.liftGet offset ty) :=
  (onlyFaults_load _ _ _ _).bind fun _ => OnlyFaults.ok _

theorem onlyFaults_liftLoad (order : ByteOrder) (ty : Ty) (addr : Lifted) :
    OnlyFaults (s.liftLoad order ty addr) :=
  (onlyFaults_load _ _ _ _).bind fun _ => OnlyFaults.lift_bind fun _ => OnlyFaults.ok _

theorem onlyFaults_liftMux (cond : Term) (zeroCase otherCase : Lifted) :
    OnlyFaults (liftMux cond zeroCase otherCase) :=
  OnlyFaults.lift_bind fun _ => OnlyFaults.lift_bind fun _ => OnlyFaults.lift_bind fun _ =>
    OnlyFaults.lift_bind fun _ => OnlyFaults.lift_bind fun _ => OnlyFaults.lift_bind fun _ =>
      OnlyFaults.lift_bind fun _ => OnlyFaults.ok _

theorem liftOp_error_cases {op : Op} (h : liftOp op vals = .error f) :
    (∃ cause, f = .fault cause) ∨ op.Refuses vals.length f := by
  cases happly : op.apply (vals.map (·.value)) with
  | ok t =>
    rw [liftOp, happly] at h
    cases h
  | error cause =>
    rw [liftOp, happly] at h
    cases h
    simpa using Op.refuses_of_apply happly

/-- A call fails for the number of its arguments or at its operation. -/
theorem call_error_cases {helper : Helper} {args : List Term} (h : helper.call args = .error f) :
    args.length ≠ helper.arity ∧ f = .callHelperArity helper helper.arity args.length ∨
      args.length = helper.arity ∧ ∃ op, f = .unsupportedFlagThunk helper op ∧
        helper.Unmodeled args op := by
  by_cases hcount : args.length = helper.arity
  · exact .inr ⟨hcount, Helper.unmodeled_of_call_error hcount h⟩
  · rw [Helper.call_eq] at h
    rcases Helper.callWords_error_cases h with ⟨ccOp, _, hop, -⟩ | ⟨-, hf⟩
    · exact absurd (by simpa using length_eq_of_operation? hop) hcount
    · exact .inl ⟨hcount, by simpa using hf⟩

theorem complains_of_liftCall {callee : String} {retTy : Ty} {args : List Expr}
    (hvals : s.liftAll policy args = .ok vals) (h : liftCall policy callee retTy vals = .error f) :
    (∃ cause, f = .fault cause) ∨ Complains policy s (.ccall callee retTy args) f := by
  have hlength : args.length = (vals.map (·.value)).length := by
    simpa using (liftAll_eq_ok_iff.1 hvals).length_eq
  unfold liftCall at h
  split at h
  · rename_i hname
    cases h
    exact .inr (.unknownHelper retTy args hname)
  · rename_i helper hname
    cases hcall : helper.call (vals.map (·.value)) with
    | ok r =>
      rw [hcall, ok_bind] at h
      exact .inl (OnlyFaults.lift_bind (fun _ => OnlyFaults.ok _) f h)
    | error cause =>
      rw [hcall] at h
      cases h
      rcases call_error_cases hcall with ⟨hcount, rfl⟩ | ⟨hcount, op, rfl, hop⟩
      · rw [← hlength] at hcount ⊢
        exact .inr (.argumentCount retTy hname hcount)
      · exact .inr (.flagThunk retTy hname (hlength.trans hcount) hvals hop)

/-- A node whose children are lifted has a fault, or something is wrong with
the node itself. -/
theorem complains_of_liftNode (hvals : s.liftAll policy e.children = .ok vals)
    (h : s.liftNode policy e vals = .error f) :
    (∃ cause, f = .fault cause) ∨ Complains policy s e f := by
  have hrel := liftAll_eq_ok_iff.1 hvals
  cases e with
  | binder index =>
    cases h
    exact .inr (.binder index)
  | getI registers index bias =>
    cases h
    exact .inr (.getI registers index bias)
  | get offset ty => exact .inl (onlyFaults_liftGet offset ty f h)
  | rdTmp tmp =>
    change s.lift policy (.rdTmp tmp) = .error f at h
    rw [lift] at h
    split at h
    · cases h
    · rename_i htmp
      cases h
      exact .inr (.rdTmp htmp)
  | const => cases h
  | unop | binop | triop | qop =>
    refine (liftOp_error_cases h).imp_right fun hrefuses => .op rfl ?_
    rwa [← hrel.length_eq] at hrefuses
  | load order ty addr =>
    obtain ⟨a, rfl, -⟩ := IR.forall₂_one hrel
    exact .inl (onlyFaults_liftLoad order ty a f h)
  | ccall callee retTy args => exact complains_of_liftCall hvals h
  | mux0X cond expr0 exprX =>
    obtain ⟨c, rest, -, hrest, rfl⟩ := List.forall₂_cons_left_iff.1 hrel
    obtain ⟨zeroCase, otherCase, rfl, -⟩ := IR.forall₂_two hrest
    exact .inl (onlyFaults_liftMux _ _ _ f h)

/-! ## The first node that is not lifted -/

/-- Trees fail at the first one that fails. -/
theorem exists_first_of_liftAll {args : List Expr} (h : s.liftAll policy args = .error f) :
    ∃ before a after, args = before ++ a :: after ∧
      (∀ b ∈ before, ∃ u, s.lift policy b = .ok u) ∧ s.lift policy a = .error f := by
  induction args with
  | nil => cases h
  | cons first args ih =>
    rw [liftAll] at h
    cases hfirst : s.lift policy first with
    | error cause =>
      rw [hfirst] at h
      cases h
      exact ⟨[], first, args, rfl, List.forall_mem_nil _, hfirst⟩
    | ok u =>
      rw [hfirst, ok_bind] at h
      cases hrest : s.liftAll policy args with
      | error cause =>
        rw [hrest] at h
        cases h
        obtain ⟨before, a, after, rfl, hbefore, ha⟩ := ih hrest
        exact ⟨first :: before, a, after, rfl, List.forall_mem_cons.2 ⟨⟨u, hfirst⟩, hbefore⟩, ha⟩
      | ok us =>
        rw [hrest] at h
        cases h

/-- A node fails, and all nodes before it are lifted. -/
def FailsFirst (policy : ArgumentPolicy) (s : PathState) (e : Expr) (f : Failure) : Prop :=
  ∃ before node after, e.postorder = before ++ node :: after ∧
    (∀ d ∈ before, ∃ u, s.lift policy d = .ok u) ∧
    s.lift policy node = .error f ∧ Complains policy s node f

/-- What fails first in a child fails first in its parent, if the children to
the left are lifted. -/
theorem FailsFirst.child {a : Expr} {before after : List Expr}
    (hchildren : e.children = before ++ a :: after)
    (hbefore : ∀ b ∈ before, ∃ u, s.lift policy b = .ok u) (h : FailsFirst policy s a f) :
    FailsFirst policy s e f := by
  obtain ⟨left, node, right, hpostorder, hleft, hnode⟩ := h
  refine ⟨before.flatMap Expr.postorder ++ left, node,
    right ++ (after.flatMap Expr.postorder ++ [e]), ?_, ?_, hnode⟩
  · rw [Expr.postorder_eq, hchildren]
    simp [hpostorder]
  · refine List.forall_mem_append.2 ⟨fun d hd => ?_, hleft⟩
    obtain ⟨b, hb, hd⟩ := List.mem_flatMap.1 hd
    obtain ⟨u, hu⟩ := hbefore b hb
    exact exists_lift_of_within (Expr.mem_postorder_iff.1 hd) hu

/-- A tree that is not lifted has a fault, or fails at its first node with
which something is wrong. -/
theorem exists_first_failure (h : s.lift policy e = .error f) :
    (∃ cause, f = .fault cause) ∨ FailsFirst policy s e f := by
  induction e using Expr.induction_children with
  | node e ih =>
    have hnode := lift_eq_bind_liftNode policy s e
    cases hvals : s.liftAll policy e.children with
    | error cause =>
      rw [h, hvals] at hnode
      cases hnode
      obtain ⟨before, a, after, hchildren, hbefore, ha⟩ := exists_first_of_liftAll hvals
      have hmem : a ∈ e.children := hchildren ▸ List.mem_append_right _ List.mem_cons_self
      exact (ih a hmem ha).imp_right fun hfirst => hfirst.child hchildren hbefore
    | ok vals =>
      rw [hvals, ok_bind] at hnode
      refine (complains_of_liftNode hvals (hnode.symm.trans h)).imp_right fun hcomplains => ?_
      refine ⟨e.children.flatMap Expr.postorder, e, [], Expr.postorder_eq e, fun d hd => ?_, h,
        hcomplains⟩
      obtain ⟨a, ha, hd⟩ := List.mem_flatMap.1 hd
      obtain ⟨u, hmem⟩ := exists_zip_of_mem_left (liftAll_eq_ok_iff.1 hvals).length_eq ha
      exact exists_lift_of_within (Expr.mem_postorder_iff.1 hd)
        ((List.forall₂_iff_zip.1 (liftAll_eq_ok_iff.1 hvals)).2 hmem)

/-- A tree that is lifted is understood to its last node, also in the arms of
choices and in the arguments of calls.  A tree that is not lifted, other than
for a fault, fails with what is wrong with its first node that is not
lifted. -/
theorem lift_rejects_in_order (policy : ArgumentPolicy) (s : PathState) (e : Expr)
    (hfault : ∀ cause, s.lift policy e ≠ .error (.fault cause)) :
    (∀ v, s.lift policy e = .ok v → ∀ d, e.Contains d → s.Understood d) ∧
      ∀ f, s.lift policy e = .error f → FailsFirst policy s e f := by
  constructor
  · intro v h d hd
    have hunderstood (d : Expr) (hd : e.Within d) : s.Understood d := by
      obtain ⟨u, hu⟩ := exists_lift_of_within hd h
      exact understood_of_lift hu
    refine hunderstood d (hd.within fun c hc hkind => ?_)
    have hc := hunderstood c hc
    cases c with
    | getI => exact hc
    | _ => cases hkind
  · intro f h
    refine (exists_first_failure h).resolve_left ?_
    rintro ⟨cause, rfl⟩
    exact hfault cause h

/-- A choice whose condition is constant, so that one arm is never taken.
That arm reads a temporary. -/
def deadArm : Expr := .mux0X (.const (.u32 0)) (.const (.u32 1)) (.rdTmp 7)

/-- The temporary of the dead arm is missed before the helper is.  Where it
is bound, the choice is understood. -/
theorem lift_rejects_in_order_deadArm :
    FailsFirst .all (start .amd64) (.ccall "no_helper" .i32 [deadArm]) (.unboundTemporary 7) ∧
      ∀ d, deadArm.Contains d → ((start .amd64).bindTemp 7 (.var "x" 32)).Understood d := by
  constructor
  · have hfails : (start .amd64).lift .all (.ccall "no_helper" .i32 [deadArm]) =
        .error (.unboundTemporary 7) := by
      decide +kernel
    refine (lift_rejects_in_order .all (start .amd64) _ fun cause hfault => ?_).2 _ hfails
    cases hfails.symm.trans hfault
  · have hlifts : (((start .amd64).bindTemp 7 (.var "x" 32)).lift .all deadArm).toOption.any
        fun _ => true := by
      decide +kernel
    obtain ⟨v, hlift, -⟩ := any_toOption_iff.1 hlifts
    refine (lift_rejects_in_order .all _ deadArm fun cause hfault => ?_).1 v hlift
    cases hlift.symm.trans hfault

end PathState

end SymLift
