/-!
# Decimal numbers

Decimal digits and the numbers that they spell.

* `Decimal.value` is the number that a list of digits spells.
* `Decimal.below?` reads a number below a bound: digits only, at least one,
  leading zeros allowed.
* `Decimal.signedBelow?` allows one plus sign before the digits.
-/

namespace SymLift.Decimal

/-- A decimal digit. -/
def isDigit (c : Char) : Bool := '0' ≤ c && c ≤ '9'

/-- The value of a decimal digit. -/
def digitValue (c : Char) : Nat := c.toNat - '0'.toNat

/-- The number that decimal digits spell. -/
def value (digits : List Char) : Nat :=
  digits.foldl (fun n c => 10 * n + digitValue c) 0

/-- A number below `bound`. -/
def below? (bound : Nat) (cs : List Char) : Option Nat :=
  if cs ≠ [] ∧ cs.all isDigit ∧ value cs < bound then some (value cs) else none

/-- A number below `bound`, with at most one plus sign before it. -/
def signedBelow? (bound : Nat) : List Char → Option Nat
  | '+' :: cs => below? bound cs
  | cs => below? bound cs

end SymLift.Decimal
