import SymLift.Bytes

/-!
# Guest machines

What lifting has to know about the machine that the code was written for:
the width of a word, and the order of the bytes of a number.
-/

namespace SymLift

/-- A machine that code was written for. -/
inductive Guest where
  | amd64
  | x86
  deriving DecidableEq

namespace Guest

/-- The name of a machine. -/
def name : Guest → String
  | amd64 => "AMD64"
  | x86 => "X86"

/-- The width of a pointer and of a register. -/
def wordBits : Guest → Nat
  | amd64 => 64
  | x86 => 32

/-- The number of bytes of a word. -/
def wordBytes (g : Guest) : Nat := g.wordBits / 8

/-- The order of the bytes of a number. -/
def order : Guest → ByteOrder
  | amd64 | x86 => .little

theorem wordBits_pos (g : Guest) : 0 < g.wordBits := by
  cases g <;> decide

theorem wordBits_le (g : Guest) : g.wordBits ≤ Word.maxBits := by
  cases g <;> decide

/-- A constant of one word. -/
def word (g : Guest) (value : Nat) : Term := Fold.lit value g.wordBits

end Guest

end SymLift
