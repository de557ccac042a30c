import SymLift.Json

/-!
# Writing JSON texts

`Json.render` writes a value without blanks.  Quotes, backslashes and
control characters are escaped.  A real number and a string that spells no
text have no digits or characters to write: they become `null`.
-/

namespace SymLift.Json

/-- Writes a character of a string at the end of a text. -/
def writeChar (out : String) (c : Char) : String :=
  if c = '"' then out ++ "\\\""
  else if c = '\\' then out ++ "\\\\"
  else if c = '\n' then out ++ "\\n"
  else if c.toNat < 0x20 then
    let digits := Nat.toDigits 16 c.toNat
    out ++ "\\u" ++ String.ofList (List.replicate (4 - digits.length) '0' ++ digits)
  else out.push c

/-- Writes a string at the end of a text. -/
def writeString (text : String) (out : String) : String :=
  (text.toList.foldl writeChar (out.push '"')).push '"'

mutual
/-- Writes a value at the end of a text. -/
def write : Json → String → String
  | .null, out | .real _, out | .string none, out => out ++ "null"
  | .bool value, out => out ++ toString value
  | .integer value, out => out ++ toString value
  | .string (some text), out => writeString text out
  | .array items, out => (writeItems "" items (out.push '[')).push ']'
  | .object fields, out => (writeFields "" fields (out.push '\x7b')).push '\x7d'

/-- Writes values at the end of a text, the first after `before`. -/
def writeItems (before : String) : List Json → String → String
  | [], out => out
  | j :: js, out => writeItems "," js (j.write (out ++ before))

/-- Writes fields at the end of a text, the first after `before`. -/
def writeFields (before : String) : List (Option String × Json) → String → String
  | [], out => out
  | (name, value) :: fields, out =>
    writeFields "," fields (value.write ((writeString (name.getD "") (out ++ before)).push ':'))
end

/-- The text of a value. -/
def render (j : Json) : String := j.write ""

end SymLift.Json
