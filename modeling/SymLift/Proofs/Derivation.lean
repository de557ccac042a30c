import Mathlib.Data.List.Forall2
import SymLift.Lift
import SymLift.Proofs.Helpers

/-!
# Derivations of lifted values

`PathState.Lifts` says by rules what the lifted value of a tree is, with one
rule for each kind of node, and `lift_of_lifts` and `lifts_of_lift` that `lift`
computes it.  A proof about lifted trees goes by induction on the derivation,
so that none of them opens `lift`.

* `Expr.Within` relates a tree to all its subtrees.
* `PathState.Reaches` relates it to those that a model evaluates: of the arms
  of a choice only the one that is taken.
* `NoWide`, `LoadsResolve` and `CallsModeled` say of all these subtrees that
  their values are not too wide, that their loads have an address, and that
  their helper calls are modeled.
-/

namespace SymLift

open Term

namespace IR.Expr

/-- The operands of a node that evaluates all of them. -/
def operands (e : Expr) : List Expr :=
  match e with
  | .load _ _ addr => [addr]
  | .ccall _ _ args => args
  | e => match e.operands? with
    | some (_, args) => args
    | none => []

/-- The subtrees of a node that are lifted. -/
def children (e : Expr) : List Expr :=
  match e with
  | .mux0X cond expr0 exprX => [cond, expr0, exprX]
  | e => e.operands

section

variable {cond expr0 exprX : Expr}

theorem cond_mem_children : cond ∈ (Expr.mux0X cond expr0 exprX).children := List.mem_cons_self

theorem expr0_mem_children : expr0 ∈ (Expr.mux0X cond expr0 exprX).children :=
  List.mem_cons_of_mem _ List.mem_cons_self

theorem exprX_mem_children : exprX ∈ (Expr.mux0X cond expr0 exprX).children :=
  List.mem_cons_of_mem _ (List.mem_cons_of_mem _ List.mem_cons_self)

end

theorem operands_of_operands? {e : Expr} {op : Op} {args : List Expr}
    (h : e.operands? = some (op, args)) : e.operands = args ∧ e.children = args := by
  cases e with
  | unop | binop | triop | qop => cases h; exact ⟨rfl, rfl⟩
  | _ => cases h

mutual
/-- What holds of a node if it holds of its children holds of every tree. -/
theorem induction_children {P : Expr → Prop} (node : ∀ e, (∀ a ∈ e.children, P a) → P e)
    (e : Expr) : P e := by
  refine node e ?_
  cases e with
  | binder | get | getI | rdTmp | const => exact fun a ha => absurd ha List.not_mem_nil
  | unop _ arg | load _ _ arg =>
    exact List.forall_mem_cons.2 ⟨induction_children node arg, List.forall_mem_nil _⟩
  | binop _ arg1 arg2 =>
    exact List.forall_mem_cons.2 ⟨induction_children node arg1,
      List.forall_mem_cons.2 ⟨induction_children node arg2, List.forall_mem_nil _⟩⟩
  | triop _ arg1 arg2 arg3 | mux0X arg1 arg2 arg3 =>
    exact List.forall_mem_cons.2 ⟨induction_children node arg1,
      List.forall_mem_cons.2 ⟨induction_children node arg2,
        List.forall_mem_cons.2 ⟨induction_children node arg3, List.forall_mem_nil _⟩⟩⟩
  | qop _ arg1 arg2 arg3 arg4 =>
    exact List.forall_mem_cons.2 ⟨induction_children node arg1,
      List.forall_mem_cons.2 ⟨induction_children node arg2,
        List.forall_mem_cons.2 ⟨induction_children node arg3,
          List.forall_mem_cons.2 ⟨induction_children node arg4, List.forall_mem_nil _⟩⟩⟩⟩
  | ccall _ _ args => exact induction_all node args

theorem induction_all {P : Expr → Prop} (node : ∀ e, (∀ a ∈ e.children, P a) → P e)
    (args : List Expr) : ∀ a ∈ args, P a := by
  cases args with
  | nil => exact List.forall_mem_nil _
  | cons a args => exact List.forall_mem_cons.2 ⟨induction_children node a, induction_all node args⟩
end

/-- A tree has another one inside it, or is that one. -/
inductive Within : Expr → Expr → Prop where
  | self (e : Expr) : Within e e
  | child {e a d : Expr} (h : a ∈ e.children) (ha : Within a d) : Within e d

/-- A list that is closed under children holds all subtrees of its trees. -/
theorem Within.mem_of_closed {e d : Expr} (h : e.Within d) (trees : List Expr)
    (hclosed : ∀ t ∈ trees, ∀ a ∈ t.children, a ∈ trees) (he : e ∈ trees) : d ∈ trees := by
  induction h with
  | self e => exact he
  | child ha _ ih => exact ih (hclosed _ he _ ha)

end IR.Expr

namespace PathState

open IR (Expr Op Ty)

variable {policy : ArgumentPolicy} {s : PathState} {m : Model} {e : Expr} {v : Lifted}

/-! ## Rules -/

/-- The lifted value of a tree, by rules. -/
inductive Lifts (policy : ArgumentPolicy) (s : PathState) : Expr → Lifted → Prop where
  | get {offset : UInt64} {ty : Ty} {v : Lifted} (h : s.liftGet offset ty = .ok v) :
    Lifts policy s (.get offset ty) v
  | rdTmp {tmp : UInt32} {value : Term} (h : s.temp? tmp.toNat = some value) :
    Lifts policy s (.rdTmp tmp) { value, needs := [] }
  | const (literal : IR.Const) :
    Lifts policy s (.const literal) { value := literal.term, needs := [] }
  | op {e : Expr} {op : Op} {args : List Expr} {vals : List Lifted} {v : Lifted}
    (he : e.operands? = some (op, args)) (hlength : args.length = vals.length)
    (hargs : ∀ {a u}, (a, u) ∈ args.zip vals → Lifts policy s a u)
    (h : liftOp op vals = .ok v) : Lifts policy s e v
  | load {order : ByteOrder} {ty : Ty} {addr : Expr} {a v : Lifted} (haddr : Lifts policy s addr a)
    (h : s.liftLoad order ty a = .ok v) : Lifts policy s (.load order ty addr) v
  | ccall {callee : String} {retTy : Ty} {args : List Expr} {vals : List Lifted} {v : Lifted}
    (hlength : args.length = vals.length)
    (hargs : ∀ {a u}, (a, u) ∈ args.zip vals → Lifts policy s a u)
    (h : liftCall policy callee retTy vals = .ok v) : Lifts policy s (.ccall callee retTy args) v
  | mux0X {cond expr0 exprX : Expr} {c v0 vX v : Lifted} (hcond : Lifts policy s cond c)
    (hzero : Lifts policy s expr0 v0) (hother : Lifts policy s exprX vX)
    (h : liftMux c.value v0 vX = .ok v) : Lifts policy s (.mux0X cond expr0 exprX) v

theorem liftAll_eq_ok_iff {args : List Expr} {vals : List Lifted} :
    s.liftAll policy args = .ok vals ↔
      List.Forall₂ (fun a u => s.lift policy a = .ok u) args vals := by
  induction args generalizing vals with
  | nil => simp [liftAll, eq_comm]
  | cons a args ih =>
    rw [liftAll, List.forall₂_cons_left_iff, bind_eq_ok_iff]
    constructor
    · rintro ⟨first, hfirst, h⟩
      obtain ⟨rest, hrest, h⟩ := bind_eq_ok_iff.1 h
      exact ⟨first, rest, hfirst, ih.1 hrest, (Except.ok.inj h).symm⟩
    · rintro ⟨first, rest, hfirst, hrest, rfl⟩
      exact ⟨first, hfirst, bind_eq_ok_iff.2 ⟨rest, ih.2 hrest, rfl⟩⟩

/-- The operands of an operator are lifted first. -/
theorem lift_op {op : Op} {args : List Expr} (he : e.operands? = some (op, args)) :
    s.lift policy e = s.liftAll policy args >>= liftOp op := by
  cases e with
  | unop | binop | triop | qop =>
    cases he
    simp only [lift, liftAll, bind_assoc]
    rfl
  | _ => cases he

theorem lifts_of_lift (h : s.lift policy e = .ok v) : Lifts policy s e v := by
  induction e using Expr.induction_children generalizing v with
  | node e ih =>
    cases he : e.operands? with
    | some opArgs =>
      obtain ⟨op, args⟩ := opArgs
      rw [lift_op he] at h
      obtain ⟨vals, hvals, h⟩ := bind_eq_ok_iff.1 h
      have hargs := List.forall₂_iff_zip.1 (liftAll_eq_ok_iff.1 hvals)
      refine .op he hargs.1 (fun hmem => ih _ ?_ (hargs.2 hmem)) h
      rw [(Expr.operands_of_operands? he).2]
      exact (List.of_mem_zip hmem).1
    | none =>
      cases e with
      | binder | getI => cases h
      | unop | binop | triop | qop => cases he
      | get => exact .get h
      | rdTmp tmp =>
        unfold lift at h
        split at h
        · rename_i value hvalue
          cases h
          exact .rdTmp hvalue
        · cases h
      | const literal =>
        cases h
        exact .const literal
      | load order ty addr =>
        obtain ⟨a, haddr, h⟩ := bind_eq_ok_iff.1 h
        exact .load (ih addr List.mem_cons_self haddr) h
      | ccall callee retTy args =>
        obtain ⟨vals, hvals, h⟩ := bind_eq_ok_iff.1 h
        have hargs := List.forall₂_iff_zip.1 (liftAll_eq_ok_iff.1 hvals)
        exact .ccall hargs.1 (fun hmem => ih _ (List.of_mem_zip hmem).1 (hargs.2 hmem)) h
      | mux0X cond expr0 exprX =>
        obtain ⟨c, hcond, h⟩ := bind_eq_ok_iff.1 h
        obtain ⟨v0, hzero, h⟩ := bind_eq_ok_iff.1 h
        obtain ⟨vX, hother, h⟩ := bind_eq_ok_iff.1 h
        exact .mux0X (ih cond Expr.cond_mem_children hcond) (ih expr0 Expr.expr0_mem_children hzero)
          (ih exprX Expr.exprX_mem_children hother) h

theorem lift_of_lifts (h : Lifts policy s e v) : s.lift policy e = .ok v := by
  induction h with
  | get h => exact h
  | rdTmp h => rw [lift, h]
  | const => rfl
  | op he hlength _ h ih =>
    have hargs := liftAll_eq_ok_iff.2 (List.forall₂_iff_zip.2 ⟨hlength, ih⟩)
    rw [lift_op he]
    exact bind_eq_ok_iff.2 ⟨_, hargs, h⟩
  | load _ h ih => exact bind_eq_ok_iff.2 ⟨_, ih, h⟩
  | ccall hlength _ h ih =>
    have hargs := liftAll_eq_ok_iff.2 (List.forall₂_iff_zip.2 ⟨hlength, ih⟩)
    exact bind_eq_ok_iff.2 ⟨_, hargs, h⟩
  | mux0X _ _ _ h ihCond ihZero ihOther =>
    exact bind_eq_ok_iff.2
      ⟨_, ihCond, bind_eq_ok_iff.2 ⟨_, ihZero, bind_eq_ok_iff.2 ⟨_, ihOther, h⟩⟩⟩

/-- The operands of an operator or a call, and what they are lifted to. -/
theorem forall₂_of_lifts {R : Expr → Lifted → Prop} {args : List Expr} {vals : List Lifted}
    (hlength : args.length = vals.length) (h : ∀ {a u}, (a, u) ∈ args.zip vals → a ∈ args → R a u) :
    List.Forall₂ R args vals :=
  List.forall₂_iff_zip.2 ⟨hlength, fun hmem => h hmem (List.of_mem_zip hmem).1⟩

theorem exists_zip_of_mem_left {α β : Type} {as : List α} {bs : List β}
    (hlength : as.length = bs.length) {a : α} (ha : a ∈ as) : ∃ b, (a, b) ∈ as.zip bs := by
  obtain ⟨i, hi, rfl⟩ := List.mem_iff_getElem.1 ha
  exact ⟨bs[i], List.mem_iff_getElem.2 ⟨i, by rw [List.length_zip]; omega, List.getElem_zip⟩⟩

theorem exists_zip_of_mem_right {α β : Type} {as : List α} {bs : List β}
    (hlength : as.length = bs.length) {b : β} (hb : b ∈ bs) : ∃ a, (a, b) ∈ as.zip bs := by
  obtain ⟨i, hi, rfl⟩ := List.mem_iff_getElem.1 hb
  exact ⟨as[i], List.mem_iff_getElem.2 ⟨i, by rw [List.length_zip]; omega, List.getElem_zip⟩⟩

theorem liftAll_of_lifts {args : List Expr} {vals : List Lifted}
    (hlength : args.length = vals.length)
    (hargs : ∀ {a u}, (a, u) ∈ args.zip vals → Lifts policy s a u) :
    s.liftAll policy args = .ok vals :=
  liftAll_eq_ok_iff.2 (forall₂_of_lifts hlength fun hmem _ => lift_of_lifts (hargs hmem))

/-! ## The subtrees that a model evaluates -/

/-- A model evaluates a subtree.  Of the arms of a choice it evaluates the
one that it takes.  The conditions of choices count if `conditions` says so. -/
inductive Reaches (policy : ArgumentPolicy) (s : PathState) (m : Model) (conditions : Bool) :
    Expr → Expr → Prop where
  | self (e : Expr) : Reaches policy s m conditions e e
  | operand {e a d : Expr} (h : a ∈ e.operands) (ha : Reaches policy s m conditions a d) :
    Reaches policy s m conditions e d
  | condition {cond expr0 exprX d : Expr} (h : conditions = true)
    (hcond : Reaches policy s m conditions cond d) :
    Reaches policy s m conditions (.mux0X cond expr0 exprX) d
  | zeroArm {cond expr0 exprX d : Expr} {c : Lifted} (hcond : s.lift policy cond = .ok c)
    (hk : c.value.HasNumber m 0) (harm : Reaches policy s m conditions expr0 d) :
    Reaches policy s m conditions (.mux0X cond expr0 exprX) d
  | otherArm {cond expr0 exprX d : Expr} {c : Lifted} {k : Nat} (hcond : s.lift policy cond = .ok c)
    (hk : c.value.HasNumber m k) (hne : k ≠ 0) (harm : Reaches policy s m conditions exprX d) :
    Reaches policy s m conditions (.mux0X cond expr0 exprX) d

/-- No value that comes up while a tree is lifted is too wide. -/
def NoWide (policy : ArgumentPolicy) (s : PathState) (e : Expr) : Prop :=
  ∀ d, e.Within d → ∀ v, s.lift policy d = .ok v → v.value.width ≤ Word.maxBits

/-- Every load that comes up while a tree is lifted has an address. -/
def LoadsResolve (policy : ArgumentPolicy) (s : PathState) (e : Expr) : Prop :=
  ∀ order ty addr, e.Within (.load order ty addr) → ∀ a, s.lift policy addr = .ok a →
    (ByteStore.resolveAddress? a.value (s.constraints ++ a.needs)).isSome

/-- The helper calls that a model evaluates are modeled. -/
def CallsModeled (policy : ArgumentPolicy) (s : PathState) (m : Model) (conditions : Bool)
    (e : Expr) : Prop :=
  ∀ callee retTy args, Reaches policy s m conditions e (.ccall callee retTy args) →
    ∀ helper vals, Helper.ofName? callee = some helper → s.liftAll policy args = .ok vals →
      helper.Modeled m (vals.map (·.value))

theorem NoWide.child {a : Expr} (h : NoWide policy s e) (ha : a ∈ e.children) : NoWide policy s a :=
  fun d hd => h d (.child ha hd)

/-- The widths of the values may be checked on a list that is closed under
children. -/
theorem NoWide.of_closed (trees : List Expr) (hclosed : ∀ t ∈ trees, ∀ a ∈ t.children, a ∈ trees)
    (hwidths : ∀ t ∈ trees, (s.lift policy t).toOption.all (·.value.width ≤ Word.maxBits))
    (he : e ∈ trees) : NoWide policy s e := by
  intro d hd v hv
  have hwidth := all_toOption_iff.1 (hwidths d (hd.mem_of_closed trees hclosed he)) v hv
  exact of_decide_eq_true hwidth

theorem LoadsResolve.child {a : Expr} (h : LoadsResolve policy s e) (ha : a ∈ e.children) :
    LoadsResolve policy s a :=
  fun order ty addr hd => h order ty addr (.child ha hd)

variable {conditions : Bool}

theorem CallsModeled.operand {a : Expr} (h : CallsModeled policy s m conditions e)
    (ha : a ∈ e.operands) : CallsModeled policy s m conditions a :=
  fun callee retTy args hd => h callee retTy args (.operand ha hd)

variable {cond expr0 exprX : Expr} {c : Lifted} {k : Nat}

theorem CallsModeled.condition (h : CallsModeled policy s m true (.mux0X cond expr0 exprX)) :
    CallsModeled policy s m true cond :=
  fun callee retTy args hd => h callee retTy args (.condition rfl hd)

theorem CallsModeled.zeroArm (h : CallsModeled policy s m conditions (.mux0X cond expr0 exprX))
    (hcond : s.lift policy cond = .ok c) (hk : c.value.HasNumber m 0) :
    CallsModeled policy s m conditions expr0 :=
  fun callee retTy args hd => h callee retTy args (.zeroArm hcond hk hd)

theorem CallsModeled.otherArm (h : CallsModeled policy s m conditions (.mux0X cond expr0 exprX))
    (hcond : s.lift policy cond = .ok c) (hk : c.value.HasNumber m k) (hne : k ≠ 0) :
    CallsModeled policy s m conditions exprX :=
  fun callee retTy args hd => h callee retTy args (.otherArm hcond hk hne hd)

/-- What is evaluated is still evaluated if the conditions of choices count
too. -/
theorem Reaches.withConditions {d : Expr} (h : Reaches policy s m false e d) :
    Reaches policy s m true e d := by
  induction h with
  | self e => exact .self e
  | operand ha _ ih => exact .operand ha ih
  | condition hfalse => cases hfalse
  | zeroArm hcond hk _ ih => exact .zeroArm hcond hk ih
  | otherArm hcond hk hne _ ih => exact .otherArm hcond hk hne ih

theorem Reaches.within {d : Expr} (h : Reaches policy s m conditions e d) : e.Within d := by
  induction h with
  | self e => exact .self e
  | @operand e a d ha _ ih =>
    cases e with
    | mux0X => exact absurd ha List.not_mem_nil
    | _ => exact .child ha ih
  | condition _ _ ih => exact .child Expr.cond_mem_children ih
  | zeroArm _ _ _ ih => exact .child Expr.expr0_mem_children ih
  | otherArm _ _ _ _ ih => exact .child Expr.exprX_mem_children ih

theorem CallsModeled.arms (h : CallsModeled policy s m true e) : CallsModeled policy s m false e :=
  fun callee retTy args hd => h callee retTy args hd.withConditions

end PathState

end SymLift
