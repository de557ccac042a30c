/-!
# SipHash-1-3

`SipHash.ofBytes` is the SipHash-1-3 digest of a list of bytes under the
all-zero key: one round for each block of eight bytes, and three rounds at
the end.

* `State` is the internal state, four words of 64 bits.
* `compress` absorbs one block.
* `blocks` cuts a list of bytes into blocks.  The last block holds the bytes
  that are left over and, in its top byte, the number of all bytes.
-/

namespace SymLift.SipHash

/-- The internal state. -/
structure State where
  v0 : UInt64
  v1 : UInt64
  v2 : UInt64
  v3 : UInt64

/-- The state before the first block, for the all-zero key. -/
def State.start : State where
  v0 := 0x736f6d6570736575
  v1 := 0x646f72616e646f6d
  v2 := 0x6c7967656e657261
  v3 := 0x7465646279746573

/-- Rotation to the left by `count` bits, `0 < count < 64`. -/
def rotate (value count : UInt64) : UInt64 :=
  (value <<< count) ||| (value >>> (64 - count))

/-- One round. -/
def State.round (s : State) : State :=
  let v0 := s.v0 + s.v1
  let v1 := rotate s.v1 13 ^^^ v0
  let v0 := rotate v0 32
  let v2 := s.v2 + s.v3
  let v3 := rotate s.v3 16 ^^^ v2
  let v0 := v0 + v3
  let v3 := rotate v3 21 ^^^ v0
  let v2 := v2 + v1
  let v1 := rotate v1 17 ^^^ v2
  let v2 := rotate v2 32
  { v0, v1, v2, v3 }

/-- Absorbs one block. -/
def State.compress (s : State) (block : UInt64) : State :=
  let mixed := { s with v3 := s.v3 ^^^ block }.round
  { mixed with v0 := mixed.v0 ^^^ block }

/-- The digest of what was absorbed. -/
def State.finish (s : State) : UInt64 :=
  let last := { s with v2 := s.v2 ^^^ 0xff }.round.round.round
  last.v0 ^^^ last.v1 ^^^ last.v2 ^^^ last.v3

/-- The number that bytes spell, least significant first. -/
def littleEndian : List UInt8 → UInt64
  | [] => 0
  | b :: bs => b.toUInt64 ||| (littleEndian bs <<< 8)

/-- The blocks of a list of bytes, of which `length` is the number of all
bytes, those already cut off included. -/
def blocks (length : Nat) : List UInt8 → List UInt64
  | b0 :: b1 :: b2 :: b3 :: b4 :: b5 :: b6 :: b7 :: rest =>
    littleEndian [b0, b1, b2, b3, b4, b5, b6, b7] :: blocks length rest
  | rest => [littleEndian rest ||| (UInt64.ofNat length <<< 56)]

/-- The digest of a list of bytes. -/
def ofBytes (bytes : List UInt8) : UInt64 :=
  ((blocks bytes.length bytes).foldl State.compress State.start).finish

end SymLift.SipHash
