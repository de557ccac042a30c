import SymLift.Term.Build

/-!
# The bytes of a term

A bit-vector is split into bytes, and the bytes of a bit-vector are put into
the opposite order.

* `splitBytes` is the list of bytes, least significant first.  A width that
  is not a whole number of bytes is padded with zeros.
* `reverseBytes` reverses the bytes of a term.  A width that is not a whole
  number of bytes is left alone.
* `Build.toBytes`, `Build.reverseBytes` and `Build.fixOrder` check the
  widths first.
-/

namespace SymLift

/-- The order of the bytes of a number in memory. -/
inductive ByteOrder where
  /-- The least significant byte has the lowest address. -/
  | little
  /-- The most significant byte has the lowest address. -/
  | big
  deriving DecidableEq

/-- The number of bytes that `bits` bits take. -/
def bytesFor (bits : Nat) : Nat := (bits + 7) / 8

namespace Fold

/-- The byte of `arg` that has weight `256 ^ index`. -/
def byte (arg : Term) (index : Nat) : Term :=
  extract (index * 8 + 7) (index * 8) arg

/-- Terms one below the other, the first one highest. -/
def concatAll (first : Term) (rest : List Term) : Term :=
  rest.foldl concat first

/-- The bytes of a term, least significant first. -/
def splitBytes (arg : Term) : List Term :=
  let count := bytesFor arg.width
  let padded := resize (count * 8) arg
  (List.range count).map (byte padded)

/-- The bytes of a term in the order of their addresses. -/
def toBytes (order : ByteOrder) (arg : Term) : List Term :=
  match order with
  | .little => splitBytes arg
  | .big => (splitBytes arg).reverse

/-- The term with its bytes in the opposite order. -/
def reverseBytes (arg : Term) : Term :=
  let width := arg.width
  if width ≤ 8 ∨ width % 8 ≠ 0 then arg
  else concatAll (byte arg 0) ((List.range' 1 (width / 8 - 1)).map (byte arg))

end Fold

namespace Build

/-- The bytes of a term in the order of their addresses. -/
def toBytes (order : ByteOrder) (arg : Term) : Except Fault (List Term) := do
  checkWidth (arg.width + 7)
  .ok (Fold.toBytes order arg)

/-- The term with its bytes in the opposite order.  More bytes than the
widest word holds do not go into one term. -/
def reverseBytes (arg : Term) : Except Fault Term :=
  if arg.width % 8 = 0 ∧ Word.maxBits < arg.width then
    .error (.concatTooWide (Word.maxBits + 8))
  else .ok (Fold.reverseBytes arg)

/-- A number read from memory with its lowest address most significant, as
an access in byte order `order` sees it. -/
def fixOrder (order : ByteOrder) (arg : Term) : Except Fault Term :=
  match order with
  | .little => reverseBytes arg
  | .big => .ok arg

theorem toBytes_ok {order : ByteOrder} {arg : Term} (h : arg.width ≤ Word.maxBits) :
    toBytes order arg = .ok (Fold.toBytes order arg) := by
  have hw : arg.width + 7 < widthLimit :=
    Nat.lt_of_le_of_lt (Nat.add_le_add_right h 7) (by decide)
  simp [toBytes, checkWidth_ok hw, bind, Except.bind]

theorem reverseBytes_ok {arg : Term} (h : arg.width ≤ Word.maxBits) :
    reverseBytes arg = .ok (Fold.reverseBytes arg) := by
  have hn : ¬ Word.maxBits < arg.width := Nat.not_lt.2 h
  simp [reverseBytes, hn]

end Build

end SymLift
