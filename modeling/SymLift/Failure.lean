import SymLift.Flags.Thunk
import SymLift.IR.Expr
import SymLift.Summary.Signature
import SymLift.Term.Printer

/-!
# Failures

Every way in which lifting, a store or a summary can fail.  A `Failure`
holds the cause, and `Failure.message` is its wording.  A fault of a term
constructor has no wording.
-/

namespace SymLift

/-- Why the arguments of a routine cannot be read. -/
inductive Mismatch where
  /-- The convention has only so many registers. -/
  | tooManyArguments (convention : String) (limit count : Nat)
  | voidArgument (index : Nat)
  /-- An argument is wider than its slot. -/
  | wideArgument (index : Nat) (ty : CType) (slot : Nat)
  deriving DecidableEq

/-- The wording of a mismatch. -/
def Mismatch.message : Mismatch → String
  | .tooManyArguments convention limit count =>
    convention ++ " passes at most " ++ toString limit ++ " arguments, signature has " ++
      toString count
  | .voidArgument index => "argument " ++ toString index ++ " is void"
  | .wideArgument index ty slot =>
    "argument " ++ toString index ++ " (" ++ ty.render ++ ") does not fit a " ++
      toString slot ++ "-bit slot"

/-- A failure. -/
inductive Failure where
  /-- A term constructor was applied outside its domain. -/
  | fault (cause : Fault)
  | unsupportedExpressionKind (kind : IR.Kind)
  | unsupportedOperator (op : IR.Op)
  | operatorArity (op : IR.Op) (expected got : Nat)
  | unsupportedCallHelper (name : String)
  | callHelperArity (helper : Helper) (expected got : Nat)
  /-- The thunk holds a known operation that is not modeled. -/
  | unsupportedFlagThunk (helper : Helper) (op : Nat)
  | unboundTemporary (tmp : UInt32)
  | loadTooWide (width : Nat)
  /-- A store to an address that is not known. -/
  | symbolicAddress (addr : Term)
  /-- No byte of a string can be its end. -/
  | stringTooLong (addr : Term) (scanned : Nat)
  | writeTooLong (count limit : Nat)
  | symbolicDescriptor (fd : Term)
  | summaryArgumentMismatch (summary : String) (reason : Mismatch)
  | inlineArgumentCount (summary : String) (expected got : Nat)
  deriving DecidableEq

/-- The wording of a failure. -/
def Failure.message : Failure → Option String
  | .fault _ => none
  | .unsupportedExpressionKind kind => some ("unsupported expression kind " ++ kind.name)
  | .unsupportedOperator op => some ("unsupported operator " ++ op.name)
  | .operatorArity op expected got =>
    some ("operator " ++ op.name ++ " takes " ++ toString expected ++ " operands, got " ++
      toString got)
  | .unsupportedCallHelper name => some ("unsupported call helper " ++ name)
  | .callHelperArity helper expected got =>
    some ("call helper " ++ helper.name ++ " takes " ++ toString expected ++
      " arguments, got " ++ toString got)
  | .unsupportedFlagThunk helper op =>
    some (helper.name ++ ": unsupported flag thunk operation " ++ toString op)
  | .unboundTemporary tmp => some ("read of unbound temporary t" ++ toString tmp.toNat)
  | .loadTooWide width =>
    some (toString width ++ "-bit load exceeds the widest supported value")
  | .symbolicAddress addr => some ("cannot resolve symbolic address " ++ addr.render)
  | .stringTooLong addr scanned =>
    some ("no terminator within " ++ toString scanned ++ " concrete bytes of " ++ addr.render)
  | .writeTooLong count limit =>
    some ("write of " ++ toString count ++ " bytes exceeds the " ++ toString limit ++
      "-byte limit")
  | .symbolicDescriptor fd => some ("cannot resolve symbolic file descriptor " ++ fd.render)
  | .summaryArgumentMismatch summary reason =>
    some ("cannot marshal arguments for " ++ summary ++ ": " ++ reason.message)
  | .inlineArgumentCount summary expected got =>
    some ("inline call to " ++ summary ++ " with " ++ toString got ++ " arguments, expected " ++
      toString expected)

/-- A fault of a constructor call is a failure. -/
def Failure.ofFault {α : Type} (r : Except Fault α) : Except Failure α :=
  r.mapError .fault

instance : MonadLift (Except Fault) (Except Failure) where
  monadLift r := Failure.ofFault r

end SymLift
