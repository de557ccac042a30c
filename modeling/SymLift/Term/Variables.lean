import SymLift.Term
import Std.Data.TreeMap

/-!
# Variables

`Term.freeVars` lists the free variables of a term with their widths, in
the order of their names.  A name that occurs at several widths has the
width of its leftmost occurrence.
-/

namespace SymLift

/-- Widths by name, in the order of the names. -/
abbrev VariableMap := Std.TreeMap String Nat

namespace Term

mutual
/-- Adds the variables of a term to a map, from right to left.  An
occurrence further left replaces one further right. -/
def collectVariables : Term → VariableMap → VariableMap
  | .const .., found | .bool _, found => found
  | .var name width, found => found.insert name width
  | .unary _ arg, found | .not arg, found | .extract _ _ arg, found
  | .zeroExt _ arg, found | .signExt _ arg, found => arg.collectVariables found
  | .binary _ left right, found | .compare _ left right, found
  | .concat left right, found => left.collectVariables (right.collectVariables found)
  | .ite cond thenArm elseArm, found =>
    cond.collectVariables (thenArm.collectVariables (elseArm.collectVariables found))
  | .conj terms, found | .disj terms, found => collectVariablesAll terms found

/-- Adds the variables of a list of terms to a map, from right to left. -/
def collectVariablesAll : List Term → VariableMap → VariableMap
  | [], found => found
  | t :: ts, found => t.collectVariables (collectVariablesAll ts found)
end

/-- The free variables of a term. -/
def freeVars (t : Term) : VariableMap := t.collectVariables ∅

end Term

end SymLift
