import SymLift.Decimal

/-!
# Operators and their names

An operator is known by its name.  There are three patterns.

* An operator of one width: `Iop_Add32`, `Iop_CmpLT64U`.  Its `Family` says
  what stands before and after the width.
* A conversion between two widths: `Iop_8Uto32`, `Iop_64HIto32`.
* A division with remainder: `Iop_DivModU64to32`.

`Op.parse` reads a name, with or without `Iop_`.  A name of no pattern is
the operator `Op.other` of that name.  `Op.name` writes a name.

A width is one of `widths`, apart from the divisor's width of a division
with remainder, which is any number of 32 bits.
-/

namespace SymLift.IR

/-- The operators of one width. -/
inductive Family where
  | add
  | sub
  | mul
  /-- The product of signed operands, at twice their width. -/
  | mullS
  /-- The product of unsigned operands, at twice their width. -/
  | mullU
  | divU
  | divS
  | and
  | or
  | xor
  | shl
  | shr
  | sar
  | not
  | cmpEQ
  | cmpNE
  | cmpLTS
  | cmpLTU
  | cmpLES
  | cmpLEU
  | cmpNEZ
  /-- The number of leading zeros. -/
  | clz
  /-- The number of trailing zeros. -/
  | ctz
  | maxU
  deriving DecidableEq

/-- The conversions between two widths. -/
inductive Conversion where
  /-- Zero extension. -/
  | unsigned
  /-- Sign extension. -/
  | signed
  /-- The low bits. -/
  | low
  /-- The high bits. -/
  | high
  /-- Two halves, the high one first. -/
  | join
  deriving DecidableEq

/-- An operator. -/
inductive Op where
  | sized (family : Family) (width : Nat)
  | convert (conversion : Conversion) (source target : Nat)
  /-- Quotient and remainder of a dividend of `source` bits by a divisor of
  `target` bits. -/
  | divMod (signed : Bool) (source target : Nat)
  /-- An operator that is only known by name. -/
  | other (name : String)
  deriving DecidableEq

namespace Family

/-- The families. -/
def all : List Family :=
  [add, sub, mul, mullS, mullU, divU, divS, and, or, xor, shl, shr, sar, not, cmpEQ, cmpNE,
    cmpLTS, cmpLTU, cmpLES, cmpLEU, cmpNEZ, clz, ctz, maxU]

/-- What stands before the width in a name, and what stands after it. -/
def affixes : Family → String × String
  | add => ("Add", "")
  | sub => ("Sub", "")
  | mul => ("Mul", "")
  | mullS => ("MullS", "")
  | mullU => ("MullU", "")
  | divU => ("DivU", "")
  | divS => ("DivS", "")
  | and => ("And", "")
  | or => ("Or", "")
  | xor => ("Xor", "")
  | shl => ("Shl", "")
  | shr => ("Shr", "")
  | sar => ("Sar", "")
  | not => ("Not", "")
  | cmpEQ => ("CmpEQ", "")
  | cmpNE => ("CmpNE", "")
  | cmpLTS => ("CmpLT", "S")
  | cmpLTU => ("CmpLT", "U")
  | cmpLES => ("CmpLE", "S")
  | cmpLEU => ("CmpLE", "U")
  | cmpNEZ => ("CmpNEZ", "")
  | clz => ("Clz", "")
  | ctz => ("Ctz", "")
  | maxU => ("Max", "U")

/-- The family with these affixes. -/
def ofAffixes? (before after : List Char) : Option Family :=
  all.find? fun family =>
    family.affixes.1.toList = before ∧ family.affixes.2.toList = after

end Family

namespace Conversion

/-- The conversions. -/
def all : List Conversion := [unsigned, signed, high, join, low]

/-- What stands between the two widths in a name. -/
def middle : Conversion → String
  | unsigned => "Uto"
  | signed => "Sto"
  | low => "to"
  | high => "HIto"
  | join => "HLto"

end Conversion

namespace Op

/-- The widths of values. -/
def widths : List Nat := [1, 8, 16, 32, 64, 128]

/-- Widths in names are below this bound. -/
def widthBound : Nat := UInt32.size

/-! ## Writing -/

/-- The name of a division with remainder, up to its widths. -/
def divModText (signed : Bool) : String := if signed then "DivModS" else "DivModU"

/-- The name of an operator. -/
def name : Op → String
  | .sized family width => "Iop_" ++ family.affixes.1 ++ toString width ++ family.affixes.2
  | .convert conversion source target =>
    "Iop_" ++ toString source ++ conversion.middle ++ toString target
  | .divMod signed source target =>
    "Iop_" ++ divModText signed ++ toString source ++ "to" ++ toString target
  | .other name => name

/-! ## Reading -/

/-- What stands after `lead`, if the characters start with it. -/
def after? : List Char → List Char → Option (List Char)
  | [], cs => some cs
  | l :: ls, c :: cs => if l = c then after? ls cs else none
  | _ :: _, [] => none

/-- The conversion whose text the characters start with, and what follows
the text. -/
def conversionOf? (cs : List Char) : Option (Conversion × List Char) :=
  Conversion.all.findSome? fun conversion =>
    (after? conversion.middle.toList cs).map fun rest => (conversion, rest)

/-- A conversion from `source` bits, read from what follows that width. -/
def parseConversion? (source : Nat) (cs : List Char) : Option Op := do
  let (conversion, rest) ← conversionOf? cs
  let target ← Decimal.signedBelow? widthBound rest
  if source ∈ widths ∧ target ∈ widths then some (.convert conversion source target) else none

/-- A division with remainder of a dividend of `source` bits, read from the
text before that width and from what follows it and `to`. -/
def parseDivMod? (before : List Char) (source : Nat) (cs : List Char) : Option Op := do
  let target ← Decimal.signedBelow? widthBound cs
  if before = "DivModU".toList then some (.divMod false source target)
  else if before = "DivModS".toList then some (.divMod true source target)
  else none

/-- An operator with some text before its first width. -/
def parseFamily? (before : List Char) (width : Nat) (cs : List Char) : Option Op :=
  if width ∈ widths then
    match after? "to".toList cs with
    | some rest => parseDivMod? before width rest
    | none => (Family.ofAffixes? before cs).map (.sized · width)
  else none

/-- The operator of a name without `Iop_`.  The first digits of the name are
its first width. -/
def parseBody? (cs : List Char) : Option Op :=
  let (before, rest) := cs.span (!Decimal.isDigit ·)
  let (digits, rest) := rest.span Decimal.isDigit
  match Decimal.below? widthBound digits with
  | none => none
  | some width =>
    match before with
    | [] => parseConversion? width rest
    | _ => parseFamily? before width rest

/-- The operator of a name. -/
def parse (name : String) : Op :=
  let body := (after? "Iop_".toList name.toList).getD name.toList
  (parseBody? body).getD (.other name)

/-- The number of operands. -/
def arity : Op → Nat
  | .sized family _ =>
    match family with
    | .not | .cmpNEZ | .clz | .ctz => 1
    | _ => 2
  | .convert conversion _ _ =>
    match conversion with
    | .join => 2
    | _ => 1
  | .divMod .. | .other _ => 2

end Op

end SymLift.IR
