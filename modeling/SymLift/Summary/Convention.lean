import SymLift.PathState

/-!
# Calling conventions

Where a routine finds its arguments, and where it leaves what it returns.
Registers are given by their offset in the register file.

* `Convention.check` says whether every argument of a signature has a place
  to come from.  It looks at no state.
* `Convention.arguments` reads the arguments from a state, each at its
  declared width.  It fails where `check` does.
* `Convention.setReturn` writes a returned value.
-/

namespace SymLift

/-- A calling convention. -/
inductive Convention where
  | amd64SysV
  | amd64Syscall
  /-- Every argument is on the stack, above the return address. -/
  | x86Cdecl
  deriving DecidableEq

namespace Convention

/-- The conventions. -/
def all : List Convention := [amd64SysV, amd64Syscall, x86Cdecl]

/-- The name of a convention. -/
def name : Convention → String
  | amd64SysV => "amd64_sysv"
  | amd64Syscall => "amd64_syscall"
  | x86Cdecl => "x86_cdecl"

/-- The convention of a name. -/
def ofName? (name : String) : Option Convention := all.find? (·.name = name)

/-- The width of a register and of a slot on the stack. -/
def wordBits : Convention → Nat
  | amd64SysV | amd64Syscall => 64
  | x86Cdecl => 32

/-- The registers of the first arguments: `rdi`, `rsi`, `rdx`, then `rcx` or
`r10`, then `r8` and `r9`. -/
def argRegisters : Convention → List Nat
  | amd64SysV => [72, 64, 32, 24, 80, 88]
  | amd64Syscall => [72, 64, 32, 96, 80, 88]
  | x86Cdecl => []

/-- The stack pointer, where the arguments after the registers are on the
stack. -/
def stackPointer? : Convention → Option Nat
  | amd64SysV | amd64Syscall => none
  | x86Cdecl => some 24

/-- The register of the returned value: `rax` or `eax`. -/
def returnRegister : Convention → Nat
  | amd64SysV | amd64Syscall => 16
  | x86Cdecl => 8

/-- A constant of one word. -/
def word (cc : Convention) (value : Nat) : Term := Fold.lit value cc.wordBits

/-! ## The check -/

/-- Whether an argument fits its slot. -/
def checkArg (cc : Convention) (index : Nat) (ty : CType) : Except Mismatch Unit :=
  match ty.width? cc.wordBits with
  | none => .error (.voidArgument index)
  | some width =>
    if cc.wordBits < width then .error (.wideArgument index ty cc.wordBits) else .ok ()

/-- Whether the arguments fit their slots, from `index` up. -/
def checkArgs (cc : Convention) (index : Nat) : List CType → Except Mismatch Unit
  | [] => .ok ()
  | ty :: tys => do
    cc.checkArg index ty
    cc.checkArgs (index + 1) tys

/-- Whether every argument has a place to come from. -/
def checkSignature (cc : Convention) (sig : Signature) : Except Mismatch Unit := do
  if cc.stackPointer?.isNone ∧ cc.argRegisters.length < sig.args.length then
    .error (.tooManyArguments cc.name cc.argRegisters.length sig.args.length)
  else cc.checkArgs 0 sig.args

/-- The check for the signature of a summary. -/
def check (cc : Convention) (summary : String) (sig : Signature) : Except Failure Unit :=
  (cc.checkSignature sig).mapError (.summaryArgumentMismatch summary)

/-! ## Arguments -/

/-- A word on the stack.  The word at index `0` is just above the return
address. -/
def stackSlot (cc : Convention) (s : PathState) (pointer index : Nat) : Except Failure Term := do
  let top ← s.registers.load (cc.word pointer) cc.wordBits []
  let addr ← Build.binary .add top (cc.word (cc.wordBits / 8 * (index + 1)))
  let raw ← s.memory.load addr cc.wordBits s.constraints
  Build.fixOrder s.guest.order raw

/-- The word that holds an argument. -/
def slot (cc : Convention) (s : PathState) (index : Nat) : Except Failure Term :=
  match cc.argRegisters[index]? with
  | some register => s.registers.load (cc.word register) cc.wordBits []
  | none => cc.stackSlot s (cc.stackPointer?.getD 0) (index - cc.argRegisters.length)

/-- The arguments of the given types, from `index` up. -/
def argumentsFrom (cc : Convention) (s : PathState) (index : Nat) :
    List CType → Except Failure (List Term)
  | [] => .ok []
  | ty :: tys => do
    let word ← cc.slot s index
    let arg ← Build.resize ((ty.width? cc.wordBits).getD cc.wordBits) word
    .ok (arg :: (← cc.argumentsFrom s (index + 1) tys))

/-- The arguments of a summary, each at its declared width. -/
def arguments (cc : Convention) (summary : String) (sig : Signature) (s : PathState) :
    Except Failure (List Term) := do
  cc.check summary sig
  cc.argumentsFrom s 0 sig.args

/-! ## The returned value -/

/-- Writes a returned value, resized to one word. -/
def setReturn (cc : Convention) (s : PathState) (value : Term) : Except Failure PathState := do
  let word ← Build.resize cc.wordBits value
  .ok { s with registers := ← s.registers.store (cc.word cc.returnRegister) word }

end Convention

end SymLift
