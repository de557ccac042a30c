import SymLift.SipHash
import SymLift.Term

/-!
# The digest of a term

`Term.digest` is a 64-bit digest of a term.  Structurally equal terms have
equal digests, so a digest can name what a term stands for.

The digest is taken over `Term.encode`: the sort, a tag for the kind of the
node, then the parts of the node in order.  Numbers are little-endian.
-/

namespace SymLift

/-- The low `count` bytes of a number, least significant first, before
`rest`. -/
def bytesBefore (count value : Nat) (rest : List UInt8) : List UInt8 :=
  match count with
  | 0 => rest
  | n + 1 => UInt8.ofNat value :: bytesBefore n (value / 256) rest

/-- A tag of eight bytes before `rest`. -/
def tagBefore (tag : Nat) (rest : List UInt8) : List UInt8 := bytesBefore 8 tag rest

/-- A width or a bit index of four bytes before `rest`. -/
def widthBefore (width : Nat) (rest : List UInt8) : List UInt8 := bytesBefore 4 width rest

/-- The place of an operation among the unary operations. -/
def UnaryOp.tag : UnaryOp → Nat
  | .complement => 0
  | .negate => 1

/-- The place of an operation among the binary operations. -/
def BinaryOp.tag : BinaryOp → Nat
  | .add => 0
  | .sub => 1
  | .mul => 2
  | .udiv => 3
  | .sdiv => 4
  | .urem => 5
  | .srem => 6
  | .and => 7
  | .or => 8
  | .xor => 9
  | .shl => 10
  | .lshr => 11
  | .ashr => 12

/-- The place of a comparison among the comparisons. -/
def CompareOp.tag : CompareOp → Nat
  | .eq => 0
  | .ult => 1
  | .ule => 2
  | .slt => 3
  | .sle => 4

/-- A sort before `rest`. -/
def TermSort.encode (s : TermSort) (rest : List UInt8) : List UInt8 :=
  match s with
  | .bool => tagBefore 0 rest
  | .bitVec width => tagBefore 1 (widthBefore width rest)

namespace Term

mutual
/-- The bytes of a term before `rest`. -/
def encode (t : Term) (rest : List UInt8) : List UInt8 :=
  t.sort.encode <| match t with
  | .const value width => tagBefore 0 (bytesBefore 16 value (widthBefore width rest))
  | .bool value => tagBefore 1 ((if value then 1 else 0) :: rest)
  | .var name width =>
    tagBefore 2 (name.toUTF8.toList ++ (0xff :: widthBefore width rest))
  | .unary op arg => tagBefore 3 (tagBefore op.tag (arg.encode rest))
  | .binary op left right =>
    tagBefore 4 (tagBefore op.tag (left.encode (right.encode rest)))
  | .compare op left right =>
    tagBefore 5 (tagBefore op.tag (left.encode (right.encode rest)))
  | .not arg => tagBefore 6 (arg.encode rest)
  | .conj terms => tagBefore 7 (bytesBefore 8 terms.length (encodeAll terms rest))
  | .disj terms => tagBefore 8 (bytesBefore 8 terms.length (encodeAll terms rest))
  | .ite cond thenArm elseArm =>
    tagBefore 9 (cond.encode (thenArm.encode (elseArm.encode rest)))
  | .extract hi lo arg =>
    tagBefore 10 (widthBefore hi (widthBefore lo (arg.encode rest)))
  | .concat high low => tagBefore 11 (high.encode (low.encode rest))
  | .zeroExt count arg => tagBefore 12 (widthBefore count (arg.encode rest))
  | .signExt count arg => tagBefore 13 (widthBefore count (arg.encode rest))

/-- The bytes of terms before `rest`. -/
def encodeAll : List Term → List UInt8 → List UInt8
  | [], rest => rest
  | t :: ts, rest => t.encode (encodeAll ts rest)
end

/-- The digest of a term. -/
def digest (t : Term) : UInt64 := SipHash.ofBytes (t.encode [])

end Term

end SymLift
