import SymLift.Guest

/-!
# The flag thunk

Lifted code does not compute the flags after every instruction.  It keeps
the operation that last set them and its operands, the flag thunk, and a
helper computes flags from the thunk when they are asked for.

* `ThunkOp` is an operation that sets flags.
* `Guest.decodeThunk?` reads the number of an operation: zero is `copy`, and
  then follow the groups of `ThunkOp.groups`, one number for each data
  width.
* `Guest.modeledOps` is one past the last number that is modeled.
* `Helper` is a helper that reads the thunk.
-/

namespace SymLift

/-- An operation that sets flags. -/
inductive ThunkOp where
  /-- The flags are given. -/
  | copy
  | add
  | sub
  /-- Addition with carry. -/
  | adc
  /-- Subtraction with borrow. -/
  | sbb
  | logic
  | inc
  | dec
  | shl
  | shr
  deriving DecidableEq

/-- The operations after `copy`, in the order of their numbers. -/
def ThunkOp.groups : List ThunkOp := [add, sub, adc, sbb, logic, inc, dec, shl, shr]

namespace Guest

/-- The data widths of an operation, in the order of its numbers. -/
def dataWidths : Guest → List Nat
  | amd64 => [8, 16, 32, 64]
  | x86 => [8, 16, 32]

/-- The operation of a number, and its data width. -/
def decodeThunk? (g : Guest) : Nat → Option (ThunkOp × Nat)
  | 0 => some (.copy, g.wordBits)
  | index + 1 => do
    let group ← ThunkOp.groups[index / g.dataWidths.length]?
    let width ← g.dataWidths[index % g.dataWidths.length]?
    some (group, width)

/-- One past the greatest number of an operation. -/
def modeledOps (g : Guest) : Nat := 1 + ThunkOp.groups.length * g.dataWidths.length

end Guest

/-! ## Helpers -/

/-- What a helper computes from the thunk. -/
inductive FlagQuery where
  /-- Whether a condition holds. -/
  | condition
  /-- All the flags. -/
  | flags
  /-- The carry flag. -/
  | carry
  deriving DecidableEq

/-- A helper that reads the flag thunk. -/
structure Helper where
  guest : Guest
  query : FlagQuery
  deriving DecidableEq

namespace Helper

/-- The helpers. -/
def all : List Helper :=
  [⟨.amd64, .condition⟩, ⟨.amd64, .flags⟩, ⟨.amd64, .carry⟩,
    ⟨.x86, .condition⟩, ⟨.x86, .flags⟩, ⟨.x86, .carry⟩]

/-- The name of a helper. -/
def name : Helper → String
  | ⟨.amd64, .condition⟩ => "amd64g_calculate_condition"
  | ⟨.amd64, .flags⟩ => "amd64g_calculate_rflags_all"
  | ⟨.amd64, .carry⟩ => "amd64g_calculate_rflags_c"
  | ⟨.x86, .condition⟩ => "x86g_calculate_condition"
  | ⟨.x86, .flags⟩ => "x86g_calculate_eflags_all"
  | ⟨.x86, .carry⟩ => "x86g_calculate_eflags_c"

/-- The helper of a name. -/
def ofName? (name : String) : Option Helper := all.find? (·.name = name)

theorem ofName?_name (h : Helper) : ofName? h.name = some h := by
  obtain ⟨guest, query⟩ := h
  cases guest <;> cases query <;> decide

/-- The number of arguments.  A condition comes before the four parts of the
thunk. -/
def arity (h : Helper) : Nat :=
  match h.query with
  | .condition => 5
  | .flags | .carry => 4

end Helper

end SymLift
