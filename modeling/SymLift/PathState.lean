import SymLift.ByteStore
import SymLift.Channels

/-!
# The state of a path

A `PathState` is everything that is known about one path through the lifted
code: the register file, the memory, the temporaries of the current
instruction, the constraints on the path, and what was written.  It is a
value, so a copy of it is an independent path.

Registers are kept in the byte order of the guest.  Memory is kept in the
order of the addresses, and whoever accesses it applies a byte order.

An `Execution` is a computation on a path state that may fail.  What it did
to the state before it failed stays done.
-/

namespace SymLift

/-- The state of one path. -/
structure PathState where
  guest : Guest
  registers : ByteStore
  memory : ByteStore
  /-- The values of the temporaries that were bound. -/
  temps : Std.TreeMap Nat Term
  /-- What holds on this path, in the order in which it came up. -/
  constraints : List Term
  channels : Channels

/-- A computation on a path state. -/
abbrev Execution (α : Type) := ExceptT Failure (StateM PathState) α

namespace PathState

/-- A path that nothing is known about. -/
def start (guest : Guest) : PathState where
  guest := guest
  registers := .empty "reg" guest.order
  memory := .empty "mem" .big
  temps := ∅
  constraints := []
  channels := {}

/-- A constant of one word. -/
def word (s : PathState) (value : Nat) : Term := s.guest.word value

/-! ## Temporaries -/

/-- The value of a temporary. -/
def temp? (s : PathState) (tmp : Nat) : Option Term := s.temps[tmp]?

/-- Binds a temporary. -/
def bindTemp (s : PathState) (tmp : Nat) (value : Term) : PathState :=
  { s with temps := s.temps.insert tmp value }

/-- Forgets every temporary. -/
def clearTemps (s : PathState) : PathState := { s with temps := ∅ }

/-- The number of temporaries that are bound. -/
def boundTemps (s : PathState) : Nat := s.temps.size

/-! ## Constraints -/

/-- Adds constraints.  One that is constantly true says nothing and is left
out. -/
def addConstraints (s : PathState) (more : List Term) : PathState :=
  { s with constraints := s.constraints ++ more.filter (· ≠ .bool true) }

theorem temp?_bindTemp (s : PathState) (tmp other : Nat) (value : Term) :
    (s.bindTemp tmp value).temp? other = if tmp = other then some value else s.temp? other := by
  by_cases h : tmp = other
  · simp [temp?, bindTemp, h]
  · simp [temp?, bindTemp, Std.TreeMap.getElem?_insert, h]

end PathState

end SymLift
