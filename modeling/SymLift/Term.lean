import SymLift.Word

/-!
# Terms

A term is a formula over bit-vectors and booleans.  Terms are first order
and immutable.

* `Term.sort` is the sort of a term, and `Term.width` the width of a
  bit-vector.  A boolean reports width `0`.  The sort is computed once, when
  a node is made, so a part that is shared many times is not walked again.
* `Term.decEq` decides equality, which is structural.

Nothing in this module checks that a term is well sorted.  `SymLift.Build`
does so, and `SymLift.Fold` simplifies.
-/

namespace SymLift

/-- A sort: truth values, or bit-vectors of one width. -/
inductive TermSort where
  | bool
  | bitVec (width : Nat)
  deriving DecidableEq

/-- The width of a sort.  The booleans have width `0`. -/
def TermSort.width : TermSort → Nat
  | .bool => 0
  | .bitVec width => width

/-- A formula over bit-vectors and booleans. -/
inductive Term where
  /-- A bit-vector constant. -/
  | const (value width : Nat)
  /-- A truth value. -/
  | bool (value : Bool)
  /-- A free bit-vector. -/
  | var (name : String) (width : Nat)
  | unary (op : UnaryOp) (arg : Term)
  | binary (op : BinaryOp) (left right : Term)
  | compare (op : CompareOp) (left right : Term)
  | not (arg : Term)
  | conj (terms : List Term)
  | disj (terms : List Term)
  | ite (cond thenArm elseArm : Term)
  /-- The bits from `hi` down to `lo`, both included. -/
  | extract (hi lo : Nat) (arg : Term)
  /-- The bits of `high` above the bits of `low`. -/
  | concat (high low : Term)
  /-- `count` zero bits above the bits of `arg`. -/
  | zeroExt (count : Nat) (arg : Term)
  /-- `count` copies of the sign above the bits of `arg`. -/
  | signExt (count : Nat) (arg : Term)
with
  /-- The sort of a term. -/
  @[computed_field] sort : Term → TermSort
    | .const _ width | .var _ width => .bitVec width
    | .bool _ | .compare .. | .not _ | .conj _ | .disj _ => .bool
    | .unary _ arg => .bitVec arg.sort.width
    | .binary _ left _ => .bitVec left.sort.width
    | .ite _ thenArm _ => thenArm.sort
    | .extract hi lo _ => .bitVec (hi - lo + 1)
    | .concat high low => .bitVec (high.sort.width + low.sort.width)
    | .zeroExt count arg | .signExt count arg => .bitVec (arg.sort.width + count)

instance : Inhabited Term := ⟨.bool true⟩

namespace Term

/-! ## Sorts -/

/-- The width of a bit-vector, and `0` for a boolean. -/
def width (t : Term) : Nat := t.sort.width

/-- Whether a term is a truth value. -/
def isBool (t : Term) : Bool :=
  match t.sort with
  | .bool => true
  | .bitVec _ => false

/-! ## Constants -/

/-- The value of a bit-vector constant. -/
def constValue? : Term → Option Nat
  | .const value _ => some value
  | _ => none

/-- The value of a bit-vector constant that fits 64 bits. -/
def addressValue? : Term → Option Nat
  | .const value _ => if value < UInt64.size then some value else none
  | _ => none

/-- The value of a boolean constant. -/
def boolValue? : Term → Option Bool
  | .bool value => some value
  | _ => none

/-- Whether a term is a constant of either sort. -/
def isConstant : Term → Bool
  | .const .. | .bool _ => true
  | _ => false

/-! ## Equality -/

mutual
/-- Decides equality.  Terms share their parts.  An object is known to equal
itself, so a part that two terms share is not walked.  What is cheap to
compare is compared first. -/
def decEq (s t : Term) : Decidable (s = t) :=
  withPtrEqDecEq s t fun _ =>
    match (inferInstance : Decidable (s.sort = t.sort ∧ s.ctorIdx = t.ctorIdx)) with
    | .isFalse h => .isFalse fun e => h (e ▸ ⟨rfl, rfl⟩)
    | .isTrue ⟨_, h⟩ =>
      match s, t, h with
      | .const v w, .const v' w', _ => decidable_of_iff (v = v' ∧ w = w') (by simp)
      | .bool b, .bool b', _ => decidable_of_iff (b = b') (by simp)
      | .var n w, .var n' w', _ => decidable_of_iff (w = w' ∧ n = n') (by simp [and_comm])
      | .unary o a, .unary o' a', _ =>
        haveI := decEq a a'
        decidable_of_iff (o = o' ∧ a = a') (by simp)
      | .binary o a b, .binary o' a' b', _ =>
        haveI := decEq a a'
        haveI := decEq b b'
        decidable_of_iff (o = o' ∧ a = a' ∧ b = b') (by simp)
      | .compare o a b, .compare o' a' b', _ =>
        haveI := decEq a a'
        haveI := decEq b b'
        decidable_of_iff (o = o' ∧ a = a' ∧ b = b') (by simp)
      | .not a, .not a', _ =>
        haveI := decEq a a'
        decidable_of_iff (a = a') (by simp)
      | .conj ts, .conj ts', _ =>
        haveI := decEqAll ts ts'
        decidable_of_iff (ts.length = ts'.length ∧ ts = ts') (by simpa using congrArg List.length)
      | .disj ts, .disj ts', _ =>
        haveI := decEqAll ts ts'
        decidable_of_iff (ts.length = ts'.length ∧ ts = ts') (by simpa using congrArg List.length)
      | .ite c t e, .ite c' t' e', _ =>
        haveI := decEq c c'
        haveI := decEq t t'
        haveI := decEq e e'
        decidable_of_iff (c = c' ∧ t = t' ∧ e = e') (by simp)
      | .extract h l a, .extract h' l' a', _ =>
        haveI := decEq a a'
        decidable_of_iff (h = h' ∧ l = l' ∧ a = a') (by simp)
      | .concat h l, .concat h' l', _ =>
        haveI := decEq h h'
        haveI := decEq l l'
        decidable_of_iff (h = h' ∧ l = l') (by simp)
      | .zeroExt n a, .zeroExt n' a', _ =>
        haveI := decEq a a'
        decidable_of_iff (n = n' ∧ a = a') (by simp)
      | .signExt n a, .signExt n' a', _ =>
        haveI := decEq a a'
        decidable_of_iff (n = n' ∧ a = a') (by simp)

/-- Decides equality of lists, term by term. -/
def decEqAll : (ss ts : List Term) → Decidable (ss = ts)
  | [], [] => .isTrue rfl
  | [], _ :: _ | _ :: _, [] => .isFalse nofun
  | s :: ss, t :: ts =>
    haveI := decEq s t
    haveI := decEqAll ss ts
    decidable_of_iff (s = t ∧ ss = ts) (by simp)
end

instance : DecidableEq Term := decEq

end Term

end SymLift
