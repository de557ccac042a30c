import SymLift.Decimal
import SymLift.Json

/-!
# Reading JSON texts

`Json.parse?` reads one JSON value from a text, with blanks around it and
nothing else.  The grammar is strict: no comments, no trailing commas, no
leading zeros, no control characters inside strings.

Every reader takes the characters that are left and returns a value with
the characters that remain.

* `number?` tells integers of 64 bits from other numbers.
* `stringBody?` reads up to the closing quote, and `textOf?` puts surrogate
  pairs together.
* `value?`, `items?` and `fields?` read nested values.  Their fuel bounds
  the length of a chain of calls.  Every second call of a chain takes a
  character, so twice the length of the text is enough.
-/

namespace SymLift.Json.Reader

/-! ## Blanks and words -/

/-- A character that may stand between tokens. -/
def isBlank (c : Char) : Bool := c = ' ' || c = '\t' || c = '\n' || c = '\r'

/-- The characters from the first that is not blank. -/
def skipBlanks (cs : List Char) : List Char := cs.dropWhile isBlank

/-- The characters after a word. -/
def afterWord? : List Char → List Char → Option (List Char)
  | [], cs => some cs
  | w :: ws, c :: cs => if w = c then afterWord? ws cs else none
  | _ :: _, [] => none

/-! ## Numbers -/

/-- Appends digits to a significand as long as it fits 64 bits.  The answer
is the significand and the number of digits that were appended. -/
def absorb : (significand taken : Nat) → List Char → Nat × Nat
  | significand, taken, [] => (significand, taken)
  | significand, taken, c :: cs =>
    let next := 10 * significand + Decimal.digitValue c
    if next < UInt64.size then absorb next (taken + 1) cs else (significand, taken)

/-- Whether a number is within the range of binary floating point: its
leading digits times a power of ten do not overflow. -/
def isFinite (integral fraction : List Char) (exponent : Int) : Bool :=
  let (whole, taken) := absorb 0 0 integral
  let (significand, takenAfter) := absorb whole 0 fraction
  let power := ((integral.length - taken : Nat) : Int) - (takenAfter : Int) + exponent
  if significand = 0 ∨ power < 0 then true
  else if 308 < power then false
  else !((UInt64.ofNat significand).toFloat * Float.ofScientific 1 false power.toNat).isInf

/-- The fraction of a number: a point and at least one digit, or nothing. -/
def fraction? : List Char → Option (Option (List Char) × List Char)
  | '.' :: cs =>
    match cs.span Decimal.isDigit with
    | ([], _) => none
    | (digits, rest) => some (some digits, rest)
  | cs => some (none, cs)

/-- The digits of an exponent, at least one. -/
def exponentDigits? (negative : Bool) (cs : List Char) : Option (Option Int × List Char) :=
  match cs.span Decimal.isDigit with
  | ([], _) => none
  | (digits, rest) =>
    let size := (Decimal.value digits : Int)
    some (some (if negative then -size else size), rest)

/-- The exponent of a number, or nothing. -/
def exponent? : List Char → Option (Option Int × List Char)
  | 'e' :: '-' :: cs | 'E' :: '-' :: cs => exponentDigits? true cs
  | 'e' :: '+' :: cs | 'E' :: '+' :: cs => exponentDigits? false cs
  | 'e' :: cs | 'E' :: cs => exponentDigits? false cs
  | cs => some (none, cs)

/-- An integer that 64 bits hold, and otherwise a real number.  Minus zero
is a real number. -/
def integerOrReal (negative : Bool) (digits : List Char) : Json :=
  let size := Decimal.value digits
  if negative ∧ 0 < size ∧ size ≤ UInt64.size / 2 then .integer (-(size : Int))
  else if ¬ negative ∧ size < UInt64.size then .integer size
  else .real (isFinite digits [] 0)

/-- A number without its sign. -/
def magnitude? (negative : Bool) (cs : List Char) : Option (Json × List Char) := do
  let (integral, rest) := cs.span Decimal.isDigit
  match integral with
  | [] | '0' :: _ :: _ => none
  | _ =>
    let (fraction, rest) ← fraction? rest
    let (exponent, rest) ← exponent? rest
    if fraction.isNone ∧ exponent.isNone then some (integerOrReal negative integral, rest)
    else some (.real (isFinite integral (fraction.getD []) (exponent.getD 0)), rest)

/-- A number. -/
def number? : List Char → Option (Json × List Char)
  | '-' :: cs => magnitude? true cs
  | cs => magnitude? false cs

/-! ## Strings -/

/-- A piece of a string: a character, or the 16 bits of an escape. -/
inductive Piece where
  | char (c : Char)
  | unit (bits : Nat)

/-- The value of a hexadecimal digit. -/
def hexValue? (c : Char) : Option Nat :=
  if '0' ≤ c ∧ c ≤ '9' then some (c.toNat - '0'.toNat)
  else if 'a' ≤ c ∧ c ≤ 'f' then some (c.toNat - 'a'.toNat + 10)
  else if 'A' ≤ c ∧ c ≤ 'F' then some (c.toNat - 'A'.toNat + 10)
  else none

/-- The 16 bits of four hexadecimal digits. -/
def unit? (a b c d : Char) : Option Nat := do
  some ((((← hexValue? a) * 16 + (← hexValue? b)) * 16 + (← hexValue? c)) * 16 + (← hexValue? d))

/-- The character of an escape of one letter. -/
def escape? : Char → Option Char
  | '"' => some '"'
  | '\\' => some '\\'
  | '/' => some '/'
  | 'b' => some '\x08'
  | 'f' => some '\x0c'
  | 'n' => some '\n'
  | 'r' => some '\r'
  | 't' => some '\t'
  | _ => none

/-- The pieces of a string up to its closing quote.  `found` holds the
pieces before, the last one first. -/
def stringBody? (found : List Piece) : List Char → Option (List Piece × List Char)
  | '"' :: rest => some (found.reverse, rest)
  | '\\' :: 'u' :: a :: b :: c :: d :: rest =>
    match unit? a b c d with
    | some bits => stringBody? (.unit bits :: found) rest
    | none => none
  | '\\' :: e :: rest =>
    match escape? e with
    | some c => stringBody? (.char c :: found) rest
    | none => none
  | c :: rest => if c.toNat < 0x20 ∨ c = '\\' then none else stringBody? (.char c :: found) rest
  | [] => none

/-- The text of the pieces of a string.  Two escapes that are a surrogate
pair are one character, and a surrogate alone is none. -/
def textOf? : List Piece → Option (List Char)
  | [] => some []
  | .char c :: rest => (textOf? rest).map (c :: ·)
  | .unit high :: .unit low :: rest =>
    if 0xd800 ≤ high ∧ high < 0xdc00 then
      if 0xdc00 ≤ low ∧ low < 0xe000 then
        let code := 0x10000 + (high - 0xd800) * 0x400 + (low - 0xdc00)
        (textOf? rest).map (Char.ofNat code :: ·)
      else none
    else if 0xdc00 ≤ high ∧ high < 0xe000 then none
    else (textOf? (.unit low :: rest)).map (Char.ofNat high :: ·)
  | .unit bits :: rest =>
    if 0xd800 ≤ bits ∧ bits < 0xe000 then none
    else (textOf? rest).map (Char.ofNat bits :: ·)

/-- A string after its opening quote. -/
def string? (cs : List Char) : Option (Option String × List Char) := do
  let (pieces, rest) ← stringBody? [] cs
  some ((textOf? pieces).map String.ofList, rest)

/-! ## Values -/

mutual
/-- A value, after blanks. -/
def value? : Nat → List Char → Option (Json × List Char)
  | 0, _ => none
  | fuel + 1, cs =>
    match skipBlanks cs with
    | 'n' :: rest => (afterWord? "ull".toList rest).map fun rest => (.null, rest)
    | 't' :: rest => (afterWord? "rue".toList rest).map fun rest => (.bool true, rest)
    | 'f' :: rest => (afterWord? "alse".toList rest).map fun rest => (.bool false, rest)
    | '"' :: rest => (string? rest).map fun (text, rest) => (.string text, rest)
    | '[' :: rest =>
      match skipBlanks rest with
      | ']' :: rest => some (.array [], rest)
      | rest => (items? fuel [] rest).map fun (items, rest) => (.array items, rest)
    | '\x7b' :: rest =>
      match skipBlanks rest with
      | '\x7d' :: rest => some (.object [], rest)
      | rest => (fields? fuel [] rest).map fun (fields, rest) => (.object fields, rest)
    | rest => number? rest

/-- The items of an array up to its closing bracket, at least one. -/
def items? : Nat → List Json → List Char → Option (List Json × List Char)
  | 0, _, _ => none
  | fuel + 1, found, cs =>
    match value? fuel cs with
    | none => none
    | some (item, rest) =>
      match skipBlanks rest with
      | ',' :: rest => items? fuel (item :: found) rest
      | ']' :: rest => some ((item :: found).reverse, rest)
      | _ => none

/-- The fields of an object up to its closing brace, at least one. -/
def fields? : Nat → List (Option String × Json) → List Char →
    Option (List (Option String × Json) × List Char)
  | 0, _, _ => none
  | fuel + 1, found, cs =>
    match skipBlanks cs with
    | '"' :: rest =>
      match string? rest with
      | none => none
      | some (name, rest) =>
        match skipBlanks rest with
        | ':' :: rest =>
          match value? fuel rest with
          | none => none
          | some (value, rest) =>
            match skipBlanks rest with
            | ',' :: rest => fields? fuel ((name, value) :: found) rest
            | '\x7d' :: rest => some (((name, value) :: found).reverse, rest)
            | _ => none
        | _ => none
    | _ => none
end

end Reader

/-- The value of a JSON text. -/
def parse? (text : String) : Option Json := do
  let cs := text.toList
  let (value, rest) ← Reader.value? (2 * cs.length + 2) cs
  if (Reader.skipBlanks rest).isEmpty then some value else none

end SymLift.Json
