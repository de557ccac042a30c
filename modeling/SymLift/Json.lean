/-!
# JSON values

A JSON value as it stands in a text.  An object keeps the order of its
fields, and it keeps fields of one name apart.

* A number is an integer of 64 bits, or it is only known to be a real
  number, within the range of binary floating point or beyond it.
* A string is `none` when its escapes spell no text, because a surrogate
  stands alone.

`Json.isSound` rejects the numbers beyond the range and the strings that
spell no text.  `Json.depth` counts the nesting of arrays and objects.

The readers `nat?`, `variant?`, `record?` and `unit?` are shared by all
types that have a JSON form.
-/

namespace SymLift

/-- A JSON value. -/
inductive Json where
  | null
  | bool (value : Bool)
  | integer (value : Int)
  | real (finite : Bool)
  | string (text : Option String)
  | array (items : List Json)
  | object (fields : List (Option String × Json))

namespace Json

instance : Inhabited Json := ⟨.null⟩

/-- A string value. -/
def str (text : String) : Json := .string (some text)

/-- A number that is a natural number. -/
def nat (n : Nat) : Json := .integer n

/-- An object, given its fields. -/
def obj (fields : List (String × Json)) : Json :=
  .object (fields.map fun (name, value) => (some name, value))

/-! ## Soundness and depth -/

mutual
/-- Every number is within range, and every string spells a text. -/
def isSound : Json → Bool
  | .null | .bool _ | .integer _ => true
  | .real finite => finite
  | .string text => text.isSome
  | .array items => allSound items
  | .object fields => allFieldsSound fields

/-- Every value of a list is sound. -/
def allSound : List Json → Bool
  | [] => true
  | j :: js => j.isSound && allSound js

/-- Every name and every value of a list of fields is sound. -/
def allFieldsSound : List (Option String × Json) → Bool
  | [] => true
  | (name, value) :: fields => name.isSome && value.isSound && allFieldsSound fields
end

mutual
/-- The number of arrays and objects around the innermost value. -/
def depth : Json → Nat
  | .array items => depthOfItems items + 1
  | .object fields => depthOfFields fields + 1
  | _ => 0

/-- The greatest depth of a list of values. -/
def depthOfItems : List Json → Nat
  | [] => 0
  | j :: js => max j.depth (depthOfItems js)

/-- The greatest depth of the values of a list of fields. -/
def depthOfFields : List (Option String × Json) → Nat
  | [] => 0
  | (_, value) :: fields => max value.depth (depthOfFields fields)
end

/-- Arrays and objects nest at most this deep. -/
def maxDepth : Nat := 127

/-! ## Readers -/

/-- An integer from `0` to `bound - 1`. -/
def nat? (bound : Nat) : Json → Option Nat
  | .integer value => if 0 ≤ value ∧ value.toNat < bound then some value.toNat else none
  | _ => none

/-- An integer from `-bound` to `bound - 1`. -/
def int? (bound : Nat) : Json → Option Int
  | .integer value => if -(bound : Int) ≤ value ∧ value < bound then some value else none
  | _ => none

/-- A truth value. -/
def bool? : Json → Option Bool
  | .bool value => some value
  | _ => none

/-- A string that spells a text. -/
def str? : Json → Option String
  | .string text => text
  | _ => none

/-- The items of an array. -/
def items? : Json → Option (List Json)
  | .array items => some items
  | _ => none

/-- The fields of an object, if every name spells a text. -/
def namedFields? : List (Option String × Json) → Option (List (String × Json))
  | [] => some []
  | (none, _) :: _ => none
  | (some name, value) :: fields => (namedFields? fields).map ((name, value) :: ·)

/-- The values of the fields of one name. -/
def valuesOf (name : String) (fields : List (String × Json)) : List Json :=
  fields.filterMap fun (other, value) => if other = name then some value else none

/-- The value of the only field of a name. -/
def field? (fields : List (String × Json)) (name : String) : Option Json :=
  match valuesOf name fields with
  | [value] => some value
  | _ => none

/-- The value of a field that may be absent.  The answer is `none` for a
field that is there twice. -/
def optionalField? (fields : List (String × Json)) (name : String) : Option (Option Json) :=
  match valuesOf name fields with
  | [] => some none
  | [value] => some (some value)
  | _ => none

/-- A record with the fields `names`: an object with each of them once, or an
array of their values in order.  The answer lists the values in the order of
`names`.  Other fields of an object are ignored. -/
def record? (names : List String) : Json → Option (List Json)
  | .array items => if items.length = names.length then some items else none
  | .object fields => do
    let named ← namedFields? fields
    names.mapM (field? named)
  | _ => none

/-- One alternative of several: its name alone, or an object whose only
field is the name with what belongs to it. -/
def variant? : Json → Option (String × Option Json)
  | .string (some name) => some (name, none)
  | .object [(some name, payload)] => some (name, some payload)
  | _ => none

/-- The name of an alternative that has nothing belonging to it.  A payload
that is written anyway is `null`.  Inside a tree of tagged records it may
also be an empty object. -/
def unit? (nested : Bool) (j : Json) : Option String :=
  match j.variant? with
  | some (name, none) | some (name, some .null) => some name
  | some (name, some (.object [])) => if nested then some name else none
  | _ => none

end Json

end SymLift
