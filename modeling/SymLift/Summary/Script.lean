import SymLift.Summary.Registry
import SymLift.Term.Construction

/-!
# Scripted summaries

A `Script` is a summary that is made of inline calls of other summaries.
The arguments of each call are terms as written, over the arguments of the
script and the results of the calls before.  The calls run in order, and the
script fails as they fail.
-/

namespace SymLift

/-- What a term in a script can refer to. -/
inductive Source where
  /-- An argument of the script. -/
  | arg (index : Nat)
  /-- The result of a call. -/
  | result (call : Nat)
  /-- A temporary. -/
  | temp (tmp : Nat)
  /-- A constant of one word. -/
  | word (value : Nat)
  deriving DecidableEq

/-- A summary made of inline calls. -/
structure Script where
  name : String
  signature : Signature
  calls : List (Summary × List (Construction Source))
  ret : Option (Construction Source)

namespace Source

/-- The term at a place of a list. -/
def at? (terms : List Term) (index : Nat) : Except Fault Term :=
  match terms[index]? with
  | some t => .ok t
  | none => .error .missing

/-- The term that a source refers to.  A source that is not there is a
fault. -/
def term (args results : List Term) (s : PathState) : Source → Except Fault Term
  | .arg index => at? args index
  | .result call => at? results call
  | .temp tmp =>
    match s.temp? tmp with
    | some t => .ok t
    | none => .error .missing
  | .word value => .ok (s.word value)

end Source

namespace Script

/-- The terms of a list of arguments. -/
def buildArgs (args results : List Term) (cs : List (Construction Source)) :
    Execution (List Term) :=
  Summary.read fun s => Failure.ofFault (Construction.buildAll (Source.term args results s) cs)

/-- Runs calls in order.  `results` holds the results of the calls before. -/
def runCalls (config : Config) (args : List Term) (results : List Term) :
    List (Summary × List (Construction Source)) → Execution (List Term)
  | [] => return results
  | (summary, written) :: calls => do
    let callArgs ← buildArgs args results written
    let result ← summary.inlineCall config callArgs
    let value ← Summary.read fun s => Failure.ofFault
      (result.materialize ("ret" ++ toString results.length) s.guest.wordBits)
    runCalls config args (results ++ [value]) calls

/-- The summary of a script. -/
def toSummary (script : Script) : Summary where
  name := script.name
  signature := script.signature
  body config args := do
    let results ← runCalls config args [] script.calls
    match script.ret with
    | none => return none
    | some written =>
      let value ← Summary.read fun s =>
        Failure.ofFault (written.build (Source.term args results s))
      return some value

end Script

end SymLift
