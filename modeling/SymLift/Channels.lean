import SymLift.Failure
import Std.Data.TreeMap

/-!
# Output channels

What the lifted code wrote, by file descriptor.  A `WriteRecord` is one
write: the bytes that were there to be written, and the requested length,
which may be unknown and may be shorter than the bytes.

* `Channels.write` adds a record to a descriptor, which must be known.
* `Channels.output?` is everything that was written to a descriptor, if all
  of it is known.
-/

namespace SymLift

/-- One write to a descriptor. -/
structure WriteRecord where
  data : List Term
  length : Term
  deriving DecidableEq

namespace WriteRecord

/-- The value of a known byte. -/
def knownByte? (byte : Term) : Option UInt8 := byte.constValue?.map UInt8.ofNat

/-- The bytes that were written, if the length and all of them are known. -/
def bytes? (r : WriteRecord) : Option (List UInt8) := do
  (r.data.take (← r.length.addressValue?)).mapM knownByte?

end WriteRecord

/-- The records of each descriptor, in the order of the writes. -/
structure Channels where
  records : Std.TreeMap Nat (List WriteRecord) := ∅

namespace Channels

/-- The records of a descriptor. -/
def writes (c : Channels) (fd : Nat) : List WriteRecord := (c.records[fd]?).getD []

/-- Adds a record to a descriptor. -/
def append (c : Channels) (fd : Nat) (record : WriteRecord) : Channels :=
  { records := c.records.insert fd (c.writes fd ++ [record]) }

/-- Writes to a descriptor. -/
def write (c : Channels) (fd : Term) (data : List Term) (length : Term) :
    Except Failure Channels :=
  match fd.addressValue? with
  | some place => .ok (c.append place { data, length })
  | none => .error (.symbolicDescriptor fd)

/-- Everything that was written to a descriptor, if all of it is known. -/
def output? (c : Channels) (fd : Nat) : Option (List UInt8) := do
  some (← (c.writes fd).mapM WriteRecord.bytes?).flatten

theorem writes_append (c : Channels) (fd other : Nat) (record : WriteRecord) :
    (c.append fd record).writes other =
      if fd = other then c.writes fd ++ [record] else c.writes other := by
  by_cases h : fd = other
  · simp [writes, append, h]
  · simp [writes, append, Std.TreeMap.getElem?_insert, h]

end Channels

end SymLift
