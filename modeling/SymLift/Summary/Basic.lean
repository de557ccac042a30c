import SymLift.Config
import SymLift.Summary.Convention

/-!
# Summaries

A summary stands in for the body of a routine.  It is run on arguments that
were already read, and all it does goes through the state of a path.

* `Summary.inlineCall` runs a summary on given arguments.
* `Summary.invoke` runs a summary as the guest calls it: the arguments come
  from a calling convention, and a value that is modeled goes to the return
  register.
-/

namespace SymLift

/-- What a summary says about its return value.  `none` says nothing. -/
abbrev ReturnValue := Option Term

/-- The value, or a variable that stands in for it. -/
def ReturnValue.materialize (r : ReturnValue) (name : String) (width : Nat) :
    Except Fault Term :=
  match r with
  | some value => .ok value
  | none => Build.var name width

/-- A stand-in for the body of a routine. -/
structure Summary where
  name : String
  signature : Signature
  /-- Runs on one argument for each type of the signature. -/
  body : Config → List Term → Execution ReturnValue

namespace Summary

/-- Applies an access to the state that gives a new state. -/
def update (f : PathState → Except Failure PathState) : Execution Unit := do
  match f (← get) with
  | .ok s => set s
  | .error cause => throw cause

/-- Reads a value from the state. -/
def read {α : Type} (f : PathState → Except Failure α) : Execution α := do
  match f (← get) with
  | .ok value => return value
  | .error cause => throw cause

/-- Runs a summary on given arguments. -/
def inlineCall (summary : Summary) (config : Config) (args : List Term) :
    Execution ReturnValue :=
  if args.length = summary.signature.args.length then summary.body config args
  else throw (.inlineArgumentCount summary.name summary.signature.args.length args.length)

/-- Runs a summary as the guest calls it. -/
def invoke (summary : Summary) (config : Config) (cc : Convention) : Execution ReturnValue := do
  let args ← read (cc.arguments summary.name summary.signature)
  let result ← summary.body config args
  match result with
  | some value => if summary.signature.ret ≠ .void then update (cc.setReturn · value)
  | none => pure ()
  return result

end Summary

end SymLift
