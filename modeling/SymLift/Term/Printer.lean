import SymLift.Term.Eval

/-!
# The text of a term

A term is written as in SMT-LIB.  A constant is its value in hexadecimal and
its width, `0x1f:8`.  A variable is its name and its width, `x:8`.
-/

namespace SymLift

/-- The hexadecimal digits of a number, without leading zeros. -/
def hexDigits (n : Nat) : String := String.ofList (Nat.toDigits 16 n)

/-- A number and a width, `0x1f:8`. -/
def wordText (value width : Nat) : String :=
  "0x" ++ hexDigits value ++ ":" ++ toString width

/-- The name of a unary operation. -/
def UnaryOp.name : UnaryOp → String
  | .complement => "bvnot"
  | .negate => "bvneg"

/-- The name of a binary operation. -/
def BinaryOp.name : BinaryOp → String
  | .add => "bvadd"
  | .sub => "bvsub"
  | .mul => "bvmul"
  | .udiv => "bvudiv"
  | .sdiv => "bvsdiv"
  | .urem => "bvurem"
  | .srem => "bvsrem"
  | .and => "bvand"
  | .or => "bvor"
  | .xor => "bvxor"
  | .shl => "bvshl"
  | .lshr => "bvlshr"
  | .ashr => "bvashr"

/-- The name of a comparison. -/
def CompareOp.name : CompareOp → String
  | .eq => "="
  | .ult => "bvult"
  | .ule => "bvule"
  | .slt => "bvslt"
  | .sle => "bvsle"

namespace Term

mutual
/-- Writes a term at the end of a text. -/
def write : Term → String → String
  | .const value width, out => out ++ wordText value width
  | .bool value, out => out ++ toString value
  | .var name width, out => out ++ name ++ ":" ++ toString width
  | .unary op arg, out => (arg.write (out ++ "(" ++ op.name ++ " ")).push ')'
  | .binary op left right, out =>
    (right.write ((left.write (out ++ "(" ++ op.name ++ " ")).push ' ')).push ')'
  | .compare op left right, out =>
    (right.write ((left.write (out ++ "(" ++ op.name ++ " ")).push ' ')).push ')'
  | .not arg, out => (arg.write (out ++ "(not ")).push ')'
  | .conj terms, out => (writeAll terms (out ++ "(and")).push ')'
  | .disj terms, out => (writeAll terms (out ++ "(or")).push ')'
  | .ite cond thenArm elseArm, out =>
    (elseArm.write ((thenArm.write ((cond.write (out ++ "(ite ")).push ' ')).push ' ')).push ')'
  | .extract hi lo arg, out =>
    (arg.write (out ++ "((_ extract " ++ toString hi ++ " " ++ toString lo ++ ") ")).push ')'
  | .concat high low, out => (low.write ((high.write (out ++ "(concat ")).push ' ')).push ')'
  | .zeroExt count arg, out =>
    (arg.write (out ++ "((_ zero_extend " ++ toString count ++ ") ")).push ')'
  | .signExt count arg, out =>
    (arg.write (out ++ "((_ sign_extend " ++ toString count ++ ") ")).push ')'

/-- Writes terms at the end of a text, each after one space. -/
def writeAll : List Term → String → String
  | [], out => out
  | t :: ts, out => writeAll ts (t.write (out.push ' '))
end

/-- The text of a term. -/
def render (t : Term) : String := t.write ""

end Term

/-- The text of a value. -/
def Value.render : Value → String
  | .bool value => toString value
  | .word value width => wordText value width

end SymLift
