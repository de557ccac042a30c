import SymLift.Term.Eval
import SymLift.Term.Variables

/-!
# Deciding constraints by enumeration

`Solver.check` decides whether a list of constraints can hold at once.  It
tries every assignment to their free variables, in one fixed order, and
answers with the first that makes all of them true.  It does not try when
the variables have more bits than a limit.

* The variables are ordered by name.  An assignment is a number whose
  digits are the values of the variables, the first variable being the
  least significant digit (`assignment`).
* A variable that occurs at several widths has the width of the last
  constraint it occurs in.
-/

namespace SymLift.Solver

/-- The answer to a query. -/
inductive Verdict where
  /-- The first assignment that makes every constraint true. -/
  | sat (assignment : List (String × Nat))
  | unsat
  /-- The variables have too many bits to try every assignment. -/
  | unknown
  deriving DecidableEq

/-- Some assignment was found. -/
def Verdict.isSat : Verdict → Bool
  | .sat _ => true
  | _ => false

/-- No assignment exists. -/
def Verdict.isUnsat : Verdict → Bool
  | .unsat => true
  | _ => false

/-- The limit on the number of free bits, unless a query sets its own. -/
def defaultLimit : Nat := 20

/-- No query sets a limit above this one. -/
def enumerationLimit : Nat := 127

/-- The variables of the constraints, in the order of their names. -/
def freeVars (constraints : List Term) : List (String × Nat) :=
  (constraints.foldl (fun found c => Term.collectVariables c found) ∅).toList

/-- The number of bits of the variables together. -/
def totalBits : List (String × Nat) → Nat
  | [] => 0
  | (_, width) :: vars => width + totalBits vars

/-- The values that `code` assigns to the variables: its digits, the first
variable being the least significant. -/
def assignment : List (String × Nat) → Nat → List (String × Nat)
  | [], _ => []
  | (name, width) :: vars, code =>
    (name, Word.truncate width code) :: assignment vars (code / Word.size width)

/-- Whether every constraint holds.  The first that does not ends the test. -/
def allHold (m : Model) : List Term → Except Fault Bool
  | [] => .ok true
  | c :: cs =>
    match c.holds m with
    | .ok true => allHold m cs
    | other => other

/-- Tries `count` assignments, from `code` up. -/
def search (vars : List (String × Nat)) (constraints : List Term) :
    (count code : Nat) → Except Fault Verdict
  | 0, _ => .ok .unsat
  | count + 1, code =>
    let candidate := assignment vars code
    match allHold (Model.ofList candidate) constraints with
    | .ok true => .ok (.sat candidate)
    | .ok false => search vars constraints count (code + 1)
    | .error cause => .error cause

/-- Decides whether the constraints can hold at once.  The limit on the free
bits is `maxBits`, but at most `enumerationLimit`. -/
def check (maxBits : Nat) (constraints : List Term) : Except Fault Verdict :=
  let vars := freeVars constraints
  let total := totalBits vars
  if Build.widthLimit ≤ total then .error .widthOverflow
  else if min maxBits enumerationLimit < total then .ok .unknown
  else search vars constraints (Word.size total) 0

end SymLift.Solver
