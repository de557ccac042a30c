import SymLift.Summary.Basic

/-!
# The length of a string

`Summary.strlen` is `size_t strlen(const char *)`.

The search for the end of the string reads byte after byte.  A zero ends
it.  Within a window of `maxStrLen` bytes it goes on over bytes that are not
known.  Past the window it goes on only as long as every byte was known, up
to `maxConcreteStrLen` bytes.

Any byte that is not known may be the end, so the length is a choice over
the bytes that were read.  If no known zero was met, the path is constrained
to have a zero among them.  If that cannot be, the string is too long.
-/

namespace SymLift.Strlen

/-- What the search met. -/
structure Scan where
  /-- The bytes before the end. -/
  bytes : List Term
  /-- The search ended at a known zero. -/
  terminated : Bool
  deriving DecidableEq

/-- Reads on, from `index` up, at most `fuel` bytes.  `allKnown` tells
whether every byte was known so far, and `found` holds the bytes so far, the
last one first. -/
def scanFrom (readByte : Nat → Except Failure Term) (window : Nat) :
    (fuel index : Nat) → (allKnown : Bool) → (found : List Term) → Except Failure Scan
  | 0, _, _, found => .ok { bytes := found.reverse, terminated := false }
  | fuel + 1, index, allKnown, found =>
    if index < window ∨ allKnown then
      match readByte index with
      | .error cause => .error cause
      | .ok byte =>
        match byte.constValue? with
        | some 0 => .ok { bytes := found.reverse, terminated := true }
        | some _ => scanFrom readByte window fuel (index + 1) allKnown (byte :: found)
        | none => scanFrom readByte window fuel (index + 1) false (byte :: found)
    else .ok { bytes := found.reverse, terminated := false }

/-- The byte at an index of a string. -/
def byteOf (s : PathState) (string : Term) (index : Nat) : Except Failure Term := do
  s.memory.load (← Build.binary .add string (s.word index)) 8 s.constraints

/-- The search for the end of a string. -/
def scan (config : Config) (s : PathState) (string : Term) : Except Failure Scan :=
  let window := config.maxStrLen.toNat
  scanFrom (byteOf s string) window (max config.maxConcreteStrLen.toNat window) 0 true []

/-- A byte is zero. -/
def isEnd (byte : Term) : Term := Fold.compare .eq byte (Fold.lit 0 8)

/-- The index of the first byte that is zero, and the number of bytes if
there is none. -/
def firstEnd (word : Nat → Term) (bytes : List Term) : Term :=
  bytes.zipIdx.foldr (fun (byte, index) rest => Fold.ite (isEnd byte) (word index) rest)
    (word bytes.length)

/-- The length of a string. -/
def run (config : Config) (string : Term) : Execution ReturnValue := do
  let found ← Summary.read (scan config · string)
  let word := (← get).word
  let length := firstEnd word found.bytes
  if !found.terminated && !found.bytes.isEmpty then
    let someEnd := Fold.disj (found.bytes.map isEnd)
    if someEnd = .bool false then
      throw (.stringTooLong string found.bytes.length)
    modify (·.addConstraints [someEnd])
  return some length

end SymLift.Strlen

namespace SymLift.Summary

/-- `size_t strlen(const char *)`. -/
def strlen : Summary where
  name := "strlen"
  signature := { args := [.string], ret := .sizeT }
  body config args :=
    match args with
    | [string] => Strlen.run config string
    | _ => throw (.inlineArgumentCount "strlen" 1 args.length)

end SymLift.Summary
