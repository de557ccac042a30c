import SymLift.Term

/-!
# Folding constructors

The functions here build terms and simplify on the way.  Operations on
constants are computed, a conjunction or disjunction loses its neutral
terms, a double negation cancels, a term equals itself, and an
if-then-else with a known condition or equal arms is one of its arms.

They check nothing.  Applied to operands of the wrong sort or width they
still build some term.  `SymLift.Build` holds the constructors that check.
-/

namespace SymLift.Fold

/-! ## Bit-vectors -/

/-- The constant of `width` bits that holds the low bits of `value`. -/
def lit (value width : Nat) : Term :=
  .const (Word.truncate width value) width

/-- A unary operation. -/
def unary (op : UnaryOp) (arg : Term) : Term :=
  match arg.constValue? with
  | some value => lit (op.apply arg.width value) arg.width
  | none => .unary op arg

/-- A binary operation on operands of one width. -/
def binary (op : BinaryOp) (left right : Term) : Term :=
  match left.constValue?, right.constValue? with
  | some l, some r => lit (op.apply left.width l r) left.width
  | _, _ => .binary op left right

/-- The bits of `arg` from `hi` down to `lo`. -/
def extract (hi lo : Nat) (arg : Term) : Term :=
  if lo = 0 ∧ hi + 1 = arg.width then arg
  else
    match arg.constValue? with
    | some value => lit (value >>> lo) (hi - lo + 1)
    | none => .extract hi lo arg

/-- `high` above `low`. -/
def concat (high low : Term) : Term :=
  match high.constValue?, low.constValue? with
  | some h, some l => lit ((h <<< low.width) ||| l) (high.width + low.width)
  | _, _ => .concat high low

/-- `arg` below `count` zero bits. -/
def zeroExt (count : Nat) (arg : Term) : Term :=
  if count = 0 then arg
  else
    match arg.constValue? with
    | some value => lit value (arg.width + count)
    | none => .zeroExt count arg

/-- `arg` below `count` copies of its sign. -/
def signExt (count : Nat) (arg : Term) : Term :=
  if count = 0 then arg
  else
    match arg.constValue? with
    | some value =>
      lit (Word.ofSigned Word.maxBits (Word.toSigned arg.width value)) (arg.width + count)
    | none => .signExt count arg

/-- `arg` zero-extended or cut to exactly `width` bits. -/
def resize (width : Nat) (arg : Term) : Term :=
  if arg.width = width then arg
  else if arg.width < width then zeroExt (width - arg.width) arg
  else extract (width - 1) 0 arg

/-- A shift.  The amount may have any width: it is resized to the width of
the operand. -/
def shift (op : BinaryOp) (arg amount : Term) : Term :=
  binary op arg (resize arg.width amount)

/-! ## Booleans -/

/-- A comparison of operands of one width. -/
def compare (op : CompareOp) (left right : Term) : Term :=
  match left.constValue?, right.constValue? with
  | some l, some r => .bool (op.holds left.width l r)
  | _, _ => if op = .eq ∧ left = right then .bool true else .compare op left right

/-- Negation.  Two negations cancel. -/
def not : Term → Term
  | .bool value => .bool (!value)
  | .not arg => arg
  | arg => .not arg

/-- The terms differ. -/
def notEqual (left right : Term) : Term :=
  not (compare .eq left right)

/-- The terms that are not the constant `neutral`, or `none` if one of them
is the other constant. -/
def remaining (neutral : Bool) : List Term → Option (List Term)
  | [] => some []
  | t :: ts =>
    match t.boolValue? with
    | some value => if value = neutral then remaining neutral ts else none
    | none => (remaining neutral ts).map (t :: ·)

/-- Terms joined by a connective, which is `node` where more than one term is
left.  The connective of no terms is `neutral`. -/
def connect (neutral : Bool) (node : List Term → Term) (terms : List Term) : Term :=
  match remaining neutral terms with
  | none => .bool (!neutral)
  | some [] => .bool neutral
  | some [t] => t
  | some kept => node kept

/-- Conjunction.  The empty one is true. -/
def conj (terms : List Term) : Term := connect true .conj terms

/-- Disjunction.  The empty one is false. -/
def disj (terms : List Term) : Term := connect false .disj terms

/-- If-then-else. -/
def ite (cond thenArm elseArm : Term) : Term :=
  match cond.boolValue? with
  | some true => thenArm
  | some false => elseArm
  | none => if thenArm = elseArm then thenArm else .ite cond thenArm elseArm

/-- `1` of `width` bits if `cond` holds, and `0` otherwise. -/
def boolToBits (width : Nat) (cond : Term) : Term :=
  ite cond (lit 1 width) (lit 0 width)

end SymLift.Fold
