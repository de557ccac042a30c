import SymLift.Failure
import SymLift.Term.Digest
import Std.Data.TreeMap

/-!
# Byte stores

A store of bytes that are terms, such as a register file or a memory.
Addresses have 64 bits and wrap around.  A value wider than a byte is split
when it is stored and joined when it is loaded, in the byte order of the
store.

* `byteAt` is the byte at an address.  A byte that was never written is a
  variable named for the store and the address.
* `storeConcrete` and `loadConcrete` access a known address.
* `resolveAddress?` finds the address that a term stands for: the term is a
  constant, or some constraint equates it with one.
* `load` and `store` access the address that a term stands for.  A load
  that cannot be placed is a variable named for the digest of the address.
  A store that cannot be placed fails.
* `byteAt_setByte` says what a write does to the bytes of a store.
-/

namespace SymLift

/-- A store of bytes. -/
structure ByteStore where
  name : String
  order : ByteOrder
  /-- The bytes that were written. -/
  cells : Std.TreeMap Nat Term

namespace ByteStore

/-- A store in which nothing was written. -/
def empty (name : String) (order : ByteOrder) : ByteStore := { name, order, cells := ∅ }

/-- The number of addresses. -/
def addressSpace : Nat := UInt64.size

/-- The address `offset` bytes above another. -/
def addressAt (addr offset : Nat) : Nat := (addr + offset) % addressSpace

/-- The variable that stands for a byte that was never written. -/
def unwritten (s : ByteStore) (addr : Nat) : Term :=
  .var (s.name ++ "_" ++ hexDigits addr) 8

/-- The byte at an address. -/
def byteAt (s : ByteStore) (addr : Nat) : Term := (s.cells[addr]?).getD (s.unwritten addr)

/-! ## Writing -/

/-- Writes one byte. -/
def setByte (s : ByteStore) (addr : Nat) (byte : Term) : ByteStore :=
  { s with cells := s.cells.insert addr byte }

/-- Writes bytes at an address and above. -/
def setBytes (s : ByteStore) (addr : Nat) : List Term → ByteStore
  | [] => s
  | byte :: bytes => (s.setByte addr byte).setBytes (addressAt addr 1) bytes

/-- Writes known bytes at an address and above. -/
def storeBytes (s : ByteStore) (addr : Nat) (data : List UInt8) : ByteStore :=
  s.setBytes addr (data.map fun b => Fold.lit b.toNat 8)

/-- Writes a value at a known address. -/
def storeConcrete (s : ByteStore) (addr : Nat) (value : Term) : Except Fault ByteStore := do
  .ok (s.setBytes addr (← Build.toBytes s.order value))

/-! ## Reading -/

/-- A byte above or below what was read from lower addresses. -/
def joinByte (order : ByteOrder) (lower byte : Term) : Term :=
  match order with
  | .big => Fold.concat lower byte
  | .little => Fold.concat byte lower

/-- The `count` bytes at an address and above as one term, and a zero byte
if there are none. -/
def joined (s : ByteStore) (addr count : Nat) : Term :=
  match (List.range count).map fun i => s.byteAt (addressAt addr i) with
  | [] => Fold.lit 0 8
  | byte :: bytes => bytes.foldl (joinByte s.order) byte

/-- `joinByte` by a checked concatenation. -/
def appendByte (order : ByteOrder) (lower byte : Term) : Except Fault Term :=
  match order with
  | .big => Build.concat lower byte
  | .little => Build.concat byte lower

/-- `joined` by checked concatenations. -/
def joinBytes (s : ByteStore) (addr count : Nat) : Except Fault Term :=
  match (List.range count).map fun i => s.byteAt (addressAt addr i) with
  | [] => .ok (Fold.lit 0 8)
  | byte :: bytes => bytes.foldlM (appendByte s.order) byte

/-- Reads a value of `width` bits at a known address. -/
def loadConcrete (s : ByteStore) (addr width : Nat) : Except Failure Term :=
  if Word.maxBits < width then .error (.loadTooWide width)
  else Failure.ofFault (s.joinBytes addr (bytesFor width) >>= Build.resize width)

/-! ## Addresses that are terms -/

/-- The constant that a constraint equates with `addr`. -/
def pinnedBy? (addr : Term) : Term → Option Nat
  | .compare .eq left right =>
    match if left = addr then right.addressValue? else none with
    | some value => some value
    | none => if right = addr then left.addressValue? else none
  | _ => none

/-- The address that a term stands for, given what is known to hold. -/
def resolveAddress? (addr : Term) (known : List Term) : Option Nat :=
  match addr.addressValue? with
  | some value => some value
  | none => known.findSome? (pinnedBy? addr)

/-- A number in hexadecimal with sixteen digits. -/
def hexDigits16 (n : UInt64) : String :=
  let digits := Nat.toDigits 16 n.toNat
  String.ofList (List.replicate (16 - digits.length) '0' ++ digits)

/-- The name of the variable that stands for a load that cannot be placed. -/
def unresolvedName (s : ByteStore) (addr : Term) (width : Nat) : String :=
  s.name ++ "_sym_" ++ hexDigits16 addr.digest ++ "_" ++ toString width

/-- Reads a value of `width` bits.  A load has no effect on the store. -/
def load (s : ByteStore) (addr : Term) (width : Nat) (known : List Term) :
    Except Failure Term :=
  if Word.maxBits < width then .error (.loadTooWide width)
  else
    match resolveAddress? addr known with
    | some place => s.loadConcrete place width
    | none => Failure.ofFault (Build.var (s.unresolvedName addr width) width)

/-- Writes a value.  A store that fails changes nothing. -/
def store (s : ByteStore) (addr value : Term) : Except Failure ByteStore :=
  match resolveAddress? addr [] with
  | some place => Failure.ofFault (s.storeConcrete place value)
  | none => .error (.symbolicAddress addr)

/-! ## The bytes of a store -/

theorem byteAt_empty (name : String) (order : ByteOrder) (addr : Nat) :
    (empty name order).byteAt addr = .var (name ++ "_" ++ hexDigits addr) 8 := by
  simp [byteAt, empty, unwritten]

theorem byteAt_setByte (s : ByteStore) (addr other : Nat) (byte : Term) :
    (s.setByte addr byte).byteAt other = if addr = other then byte else s.byteAt other := by
  unfold byteAt setByte unwritten
  by_cases h : addr = other
  · simp [h]
  · simp [Std.TreeMap.getElem?_insert, h]

end ByteStore

end SymLift
