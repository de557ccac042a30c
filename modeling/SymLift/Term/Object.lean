import SymLift.Term.Construction

/-!
# Objects

Two structurally equal terms can come from two constructor calls.  An
`Object` is a term together with the call that it came from, so that it can
be told whether two results are one and the same.

Most calls give a new object.  A call that has nothing to do hands its
operand back:

* a resize to the same width, an extension by no bits, an extraction of
  every bit, a reversal of at most one byte;
* a negation of a negation, which is the object that was negated;
* a conjunction or disjunction of one term that is left;
* an if-then-else whose condition is known, or whose arms are equal.

`Construction.identify` builds like `Construction.build`, and keeps track of
the objects.
-/

namespace SymLift

/-- The constructor call that a term came from. -/
structure Identity where
  number : Nat
  /-- The number of what a negation negates. -/
  negated : Option Nat := none
  deriving DecidableEq

/-- A term and the constructor call that it came from. -/
structure Object where
  term : Term
  identity : Identity

/-- A computation that makes objects.  The state is the next number. -/
abbrev Identify (α : Type) := StateT Nat (Except Fault) α

namespace Object

/-- A new object. -/
def new (term : Term) (negated : Option Nat) : Identify Object := do
  let number ← get
  set (number + 1)
  return { term, identity := { number, negated } }

/-- A new object for the result of a constructor call. -/
def ofCall (call : Except Fault Term) : Identify Object := do
  new (← call) none

/-- Negation. -/
def boolNot (arg : Object) : Identify Object := do
  let result ← Build.not arg.term
  match arg.term, arg.identity.negated with
  | .not _, some number => return { term := result, identity := { number } }
  | .bool _, _ | .not _, none => new result none
  | _, _ => new result (some arg.identity.number)

/-- Whether a constructor call of one operand hands its operand back. -/
def handsBack (call : UnaryCall) (arg : Term) : Bool :=
  match call with
  | .reverseBytes => arg.width ≤ 8 || arg.width % 8 != 0
  | .extract hi lo => lo == 0 && hi + 1 == arg.width
  | .zeroExt count | .signExt count => count == 0
  | .resize width => arg.width == width
  | .bits _ | .boolNot | .boolToBits _ => false

/-- A constructor call of one operand. -/
def callUnary (call : UnaryCall) (arg : Object) : Identify Object := do
  match call with
  | .boolNot => arg.boolNot
  | _ =>
    let result ← Build.callUnary call arg.term
    if handsBack call arg.term then return arg else new result none

/-- A constructor call of two operands. -/
def callBinary (call : BinaryCall) (left right : Object) : Identify Object := do
  match call with
  | .notEqual => (← ofCall (Build.compare .eq left.term right.term)).boolNot
  | _ => ofCall (Build.callBinary call left.term right.term)

/-- The only argument that a conjunction or disjunction is left with, where
`neutral` is the value of the arguments that are dropped. -/
def onlyLeft? (neutral : Bool) (args : List Object) : Option Object :=
  if args.any (·.term.boolValue? == some !neutral) then none
  else
    match args.filter (·.term.boolValue? != some neutral) with
    | [arg] => some arg
    | _ => none

/-- A conjunction or a disjunction. -/
def callMany (neutral : Bool) (call : List Term → Except Fault Term) (args : List Object) :
    Identify Object := do
  let result ← call (args.map (·.term))
  match onlyLeft? neutral args with
  | some arg => return arg
  | none => new result none

/-- If-then-else. -/
def callIte (cond thenArm elseArm : Object) : Identify Object := do
  let result ← Build.ite cond.term thenArm.term elseArm.term
  match cond.term.boolValue? with
  | some true => return thenArm
  | some false => return elseArm
  | none => if thenArm.term = elseArm.term then return thenArm else new result none

end Object

namespace Construction

variable {α : Type}

mutual
/-- Calls the constructors, operands from left to right, and keeps track of
the objects. -/
def identify (leafObject : α → Identify Object) : Construction α → Identify Object
  | .leaf source => leafObject source
  | .const value width => Object.ofCall (Build.lit value width)
  | .var name width => Object.ofCall (Build.var name width)
  | .bool value => Object.new (.bool value) none
  | .unary call arg => do
    Object.callUnary call (← arg.identify leafObject)
  | .binary call left right => do
    Object.callBinary call (← left.identify leafObject) (← right.identify leafObject)
  | .conj args => do
    Object.callMany true Build.conj (← identifyAll leafObject args)
  | .disj args => do
    Object.callMany false Build.disj (← identifyAll leafObject args)
  | .ite cond thenArm elseArm => do
    Object.callIte (← cond.identify leafObject) (← thenArm.identify leafObject)
      (← elseArm.identify leafObject)

/-- Builds a list of objects, from left to right. -/
def identifyAll (leafObject : α → Identify Object) :
    List (Construction α) → Identify (List Object)
  | [] => return []
  | c :: cs => do
    let o ← c.identify leafObject
    return o :: (← identifyAll leafObject cs)
end

end Construction

end SymLift
