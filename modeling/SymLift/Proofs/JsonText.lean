import Mathlib.Data.List.Basic
import SymLift.Json.Reader
import SymLift.Json.Writer
import SymLift.Proofs.Decimals

/-!
# Reading back a JSON text

A value is read back from the text that it is written as, if it is `Exact`: it
has no numbers but integers of 64 bits, and its strings and names spell texts.
Real numbers and lone surrogates are lost when they are written.

* `toList_write` and the equations after it: the characters of a text, from
  those of its parts.
* `string?_escaped` and `number?_integer`: strings and integers are read back.
* `value?_render`: so is every exact value.  The fuel is measured by the
  length of the text, since every item or field takes characters away.
* `parse?_render`: the whole text is read.
-/

namespace SymLift.Json

open Reader

variable {rest cs : List Char} {c : Char} {j : Json} {fuel : Nat}

mutual
/-- The text of a value determines it: its numbers are integers of 64 bits,
and its strings and names spell texts. -/
def Exact : Json → Prop
  | .null | .bool _ => True
  | .integer value => -((UInt64.size / 2 : Nat) : Int) ≤ value ∧ value < UInt64.size
  | .real _ => False
  | .string text => text.isSome
  | .array items => ExactItems items
  | .object fields => ExactFields fields

/-- The text of every value of a list determines it. -/
def ExactItems : List Json → Prop
  | [] => True
  | j :: js => j.Exact ∧ ExactItems js

/-- The text of every name and value of a list of fields determines it. -/
def ExactFields : List (Option String × Json) → Prop
  | [] => True
  | (name, value) :: fields => name.isSome ∧ value.Exact ∧ ExactFields fields
end

mutual
theorem Exact.isSound {j : Json} (h : j.Exact) : j.isSound = true := by
  cases j with
  | null | bool | integer => rfl
  | real => cases h
  | string text => exact h
  | array items => exact ExactItems.allSound h
  | object fields => exact ExactFields.allFieldsSound h

theorem ExactItems.allSound {items : List Json} (h : ExactItems items) :
    Json.allSound items = true := by
  cases items with
  | nil => rfl
  | cons j js => exact Bool.and_eq_true_iff.2 ⟨Exact.isSound h.1, ExactItems.allSound h.2⟩

theorem ExactFields.allFieldsSound {fields : List (Option String × Json)} (h : ExactFields fields) :
    Json.allFieldsSound fields = true := by
  cases fields with
  | nil => rfl
  | cons field fields =>
    exact Bool.and_eq_true_iff.2 ⟨Bool.and_eq_true_iff.2 ⟨h.1, Exact.isSound h.2.1⟩,
      ExactFields.allFieldsSound h.2.2⟩
end

theorem exact_obj {fields : List (String × Json)} (h : ∀ field ∈ fields, field.2.Exact) :
    (obj fields).Exact := by
  rw [obj, Exact]
  induction fields with
  | nil => trivial
  | cons field fields ih =>
    obtain ⟨hfield, hfields⟩ := List.forall_mem_cons.1 h
    exact ⟨rfl, hfield, ih hfields⟩

theorem exact_nat {n : Nat} (h : n < UInt64.size) : (nat n).Exact := by
  refine ⟨?_, Int.ofNat_lt.2 h⟩
  have := Int.natCast_nonneg n
  omega

/-! ## What is written -/

/-- The characters that a character of a string is written as. -/
def escaped (c : Char) : List Char := (writeChar "" c).toList

theorem toList_writeChar (out : String) (c : Char) :
    (writeChar out c).toList = out.toList ++ escaped c := by
  unfold escaped writeChar
  split_ifs <;> simp

theorem toList_foldl_writeChar (cs : List Char) (out : String) :
    (cs.foldl writeChar out).toList = out.toList ++ cs.flatMap escaped := by
  induction cs generalizing out with
  | nil => simp
  | cons c cs ih => simp [ih, toList_writeChar]

theorem toList_writeString (text out : String) :
    (writeString text out).toList = out.toList ++ '"' :: (text.toList.flatMap escaped ++ ['"']) := by
  simp [writeString, toList_foldl_writeChar]

mutual
theorem toList_write (j : Json) (out : String) :
    (j.write out).toList = out.toList ++ j.render.toList := by
  cases j with
  | null | bool | integer | real => simp [render, write]
  | string text => cases text <;> simp [render, write, toList_writeString]
  | array items =>
    rw [render, write, write, String.toList_push, String.toList_push,
      toList_writeItems "" items (out.push '['), toList_writeItems "" items ("".push '[')]
    simp
  | object fields =>
    rw [render, write, write, String.toList_push, String.toList_push,
      toList_writeFields "" fields (out.push '\x7b'),
      toList_writeFields "" fields ("".push '\x7b')]
    simp

theorem toList_writeItems (before : String) (items : List Json) (out : String) :
    (writeItems before items out).toList = out.toList ++ (writeItems before items "").toList := by
  cases items with
  | nil => simp [writeItems]
  | cons j js =>
    rw [writeItems, writeItems, toList_writeItems "," js (j.write (out ++ before)),
      toList_writeItems "," js (j.write ("" ++ before)), toList_write j (out ++ before),
      toList_write j ("" ++ before)]
    simp

theorem toList_writeFields (before : String) (fields : List (Option String × Json))
    (out : String) :
    (writeFields before fields out).toList =
      out.toList ++ (writeFields before fields "").toList := by
  cases fields with
  | nil => simp [writeFields]
  | cons field fields =>
    obtain ⟨name, value⟩ := field
    rw [writeFields, writeFields, toList_writeFields "," fields (value.write _),
      toList_writeFields "," fields (value.write ((writeString _ ("" ++ before)).push ':')),
      toList_write value ((writeString _ (out ++ before)).push ':'),
      toList_write value ((writeString _ ("" ++ before)).push ':')]
    simp [toList_writeString]
end

theorem toList_render_array (items : List Json) :
    (array items).render.toList = '[' :: ((writeItems "" items "").toList ++ [']']) := by
  rw [render, write, String.toList_push, toList_writeItems]
  rfl

theorem toList_render_object (fields : List (Option String × Json)) :
    (object fields).render.toList = '\x7b' :: ((writeFields "" fields "").toList ++ ['\x7d']) := by
  rw [render, write, String.toList_push, toList_writeFields]
  rfl

theorem toList_writeItems_cons (before : String) (j : Json) (js : List Json) :
    (writeItems before (j :: js) "").toList =
      before.toList ++ (j.render.toList ++ (writeItems "," js "").toList) := by
  rw [writeItems, toList_writeItems, toList_write]
  simp

theorem toList_writeItems_singleton (j : Json) :
    (writeItems "" [j] "").toList = j.render.toList := by
  rw [toList_writeItems_cons, writeItems]
  simp

theorem toList_writeItems_cons_cons (j₁ j₂ : Json) (js : List Json) :
    (writeItems "" (j₁ :: j₂ :: js) "").toList =
      j₁.render.toList ++ ',' :: (writeItems "" (j₂ :: js) "").toList := by
  simp [toList_writeItems_cons]

theorem toList_writeFields_cons (before name : String) (value : Json)
    (fields : List (Option String × Json)) :
    (writeFields before ((some name, value) :: fields) "").toList =
      before.toList ++ '"' :: (name.toList.flatMap escaped ++ '"' :: ':' ::
        (value.render.toList ++ (writeFields "," fields "").toList)) := by
  rw [writeFields, toList_writeFields, toList_write]
  simp [toList_writeString]

theorem toList_writeFields_singleton (name : String) (value : Json) :
    (writeFields "" [(some name, value)] "").toList =
      '"' :: (name.toList.flatMap escaped ++ '"' :: ':' :: value.render.toList) := by
  rw [toList_writeFields_cons, writeFields]
  simp

theorem toList_writeFields_cons_cons (name₁ name₂ : String) (value₁ value₂ : Json)
    (fields : List (Option String × Json)) :
    (writeFields "" ((some name₁, value₁) :: (some name₂, value₂) :: fields) "").toList =
      '"' :: (name₁.toList.flatMap escaped ++ '"' :: ':' :: (value₁.render.toList ++
        ',' :: (writeFields "" ((some name₂, value₂) :: fields) "").toList)) := by
  simp [toList_writeFields_cons]

namespace Reader

/-! ## Strings -/

/-- What a character of a string is read as, after it was escaped. -/
def piece (c : Char) : Piece := if c.toNat < 0x20 ∧ c ≠ '\n' then .unit c.toNat else .char c

/-- A control character has two hexadecimal digits. -/
theorem padded_toDigits : ∀ k < 0x20,
    List.replicate (4 - (Nat.toDigits 16 k).length) '0' ++ Nat.toDigits 16 k =
      ['0', '0', Nat.digitChar (k / 16), Nat.digitChar (k % 16)] := by
  decide

theorem unit?_digitChar : ∀ k < 0x20,
    unit? '0' '0' (Nat.digitChar (k / 16)) (Nat.digitChar (k % 16)) = some k := by
  decide

theorem stringBody?_escaped (found : List Piece) (c : Char) (rest : List Char) :
    stringBody? found (escaped c ++ rest) = stringBody? (piece c :: found) rest := by
  by_cases hshort : c = '"' ∨ c = '\\' ∨ c = '\n'
  · rcases hshort with rfl | rfl | rfl <;> rfl
  -- A control character becomes the piece of its four digits, any other stands for itself.
  · rw [not_or, not_or] at hshort
    obtain ⟨hquote, hbackslash, hnewline⟩ := hshort
    rw [escaped, writeChar, if_neg hquote, if_neg hbackslash, if_neg hnewline, piece]
    by_cases hlt : c.toNat < 0x20
    · rw [if_pos hlt, if_pos ⟨hlt, hnewline⟩]
      dsimp only
      rw [padded_toDigits _ hlt]
      simp [stringBody?, unit?_digitChar _ hlt]
    · rw [if_neg hlt, if_neg (hlt ·.1), String.toList_push]
      simp [stringBody?, hbackslash, hlt]

theorem stringBody?_flatMap_escaped (found : List Piece) (cs rest : List Char) :
    stringBody? found (cs.flatMap escaped ++ '"' :: rest) =
      some (found.reverse ++ cs.map piece, rest) := by
  induction cs generalizing found with
  | nil => simp [stringBody?]
  | cons c cs ih =>
    rw [List.flatMap_cons, List.append_assoc, stringBody?_escaped, ih]
    simp

/-- The bits of a control character are no half of a surrogate pair, whatever
piece comes next. -/
theorem textOf?_unit {bits : Nat} (h : bits < 0x20) (pieces : List Piece) :
    textOf? (.unit bits :: pieces) = (textOf? pieces).map (Char.ofNat bits :: ·) := by
  have hhigh : ¬ (0xd800 ≤ bits ∧ bits < 0xdc00) := by omega
  have hlow : ¬ (0xdc00 ≤ bits ∧ bits < 0xe000) := by omega
  have halone : ¬ (0xd800 ≤ bits ∧ bits < 0xe000) := by omega
  cases pieces with
  | nil => simp only [textOf?, if_neg halone]
  | cons next pieces =>
    cases next with
    | char c => simp only [textOf?, if_neg halone]
    | unit low => simp only [textOf?, if_neg hhigh, if_neg hlow]

theorem textOf?_map_piece (cs : List Char) : textOf? (cs.map piece) = some cs := by
  induction cs with
  | nil => rfl
  | cons c cs ih =>
    rw [List.map_cons, piece]
    split
    · rename_i h
      rw [textOf?_unit h.1, ih, Option.map_some, Char.ofNat_toNat]
    · rw [textOf?, ih, Option.map_some]

theorem string?_escaped (text : String) (rest : List Char) :
    string? (text.toList.flatMap escaped ++ '"' :: rest) = some (some text, rest) := by
  rw [string?, stringBody?_flatMap_escaped]
  simp [textOf?_map_piece]

/-! ## Numbers -/

/-- Nothing follows, or what follows a value inside another. -/
def Ends (rest : List Char) : Prop := ∀ c ∈ rest.head?, c = ',' ∨ c = ']' ∨ c = '\x7d'

theorem ends_nil : Ends [] := by
  intro c hc
  cases hc

theorem ends_cons (h : c = ',' ∨ c = ']' ∨ c = '\x7d') : Ends (c :: rest) := by
  intro d hd
  cases hd
  exact h

theorem Ends.endsRun (h : Ends rest) : Decimal.EndsRun Decimal.isDigit rest := by
  intro c hc
  rcases h c hc with rfl | rfl | rfl <;> decide

theorem fraction?_of_ends (h : Ends rest) : fraction? rest = some (none, rest) := by
  cases rest with
  | nil => rfl
  | cons c rest => rcases h c rfl with rfl | rfl | rfl <;> rfl

theorem exponent?_of_ends (h : Ends rest) : exponent? rest = some (none, rest) := by
  cases rest with
  | nil => rfl
  | cons c rest => rcases h c rfl with rfl | rfl | rfl <;> rfl

/-- The first digit of a positive number is not zero. -/
theorem head?_toDigits_ne_zero (n : Nat) (h : 0 < n) : (Nat.toDigits 10 n).head? ≠ some '0' := by
  induction n using Nat.strongRecOn with
  | ind n ih =>
    by_cases hlt : n < 10
    · have hdigit : ∀ k < 10, 0 < k → Nat.digitChar k ≠ '0' := by decide
      rw [Nat.toDigits_of_lt_base hlt, List.head?_cons, ne_eq, Option.some_inj]
      exact hdigit n hlt h
    · rw [Nat.toDigits_of_base_le (by decide) (Nat.not_lt.1 hlt),
        List.head?_append_of_ne_nil _ Nat.toDigits_ne_nil]
      exact ih (n / 10) (by omega) (by omega)

theorem magnitude?_toDigits (negative : Bool) (n : Nat) (hrest : Ends rest) :
    magnitude? negative (Nat.toDigits 10 n ++ rest) =
      some (integerOrReal negative (Nat.toDigits 10 n), rest) := by
  have hleading : ∀ c cs, Nat.toDigits 10 n ≠ '0' :: c :: cs := by
    intro c cs h
    by_cases hn : n = 0
    · rw [hn] at h
      cases h
    · exact head?_toDigits_ne_zero n (Nat.pos_of_ne_zero hn) (congrArg List.head? h)
  rw [magnitude?, Decimal.span_toDigits n hrest.endsRun]
  dsimp only
  split
  · rename_i h
    exact absurd h Nat.toDigits_ne_nil
  · rename_i h
    exact absurd h (hleading _ _)
  · rw [fraction?_of_ends hrest]
    simp [exponent?_of_ends hrest]

theorem toList_render_ofNat (n : Nat) :
    (integer (Int.ofNat n)).render.toList = Nat.toDigits 10 n := by
  show ("" ++ String.ofList (Nat.toDigits 10 n)).toList = _
  simp

theorem toList_render_negSucc (n : Nat) :
    (integer (Int.negSucc n)).render.toList = '-' :: Nat.toDigits 10 (n + 1) := by
  show ("" ++ ("-" ++ String.ofList (Nat.toDigits 10 (n + 1)))).toList = _
  simp

theorem integerOrReal_toDigits {n : Nat} (h : n < UInt64.size) :
    integerOrReal false (Nat.toDigits 10 n) = .integer n := by
  rw [integerOrReal, Decimal.value_toDigits, if_neg (fun hneg => Bool.false_ne_true hneg.1),
    if_pos ⟨Bool.false_ne_true, h⟩]

theorem integerOrReal_neg_toDigits {n : Nat} (hpos : 0 < n) (h : n ≤ UInt64.size / 2) :
    integerOrReal true (Nat.toDigits 10 n) = .integer (-n) := by
  rw [integerOrReal, Decimal.value_toDigits, if_pos ⟨rfl, hpos, h⟩]

/-- An integer begins with a sign or a digit. -/
theorem exists_render_integer_eq_cons (value : Int) :
    ∃ c cs, (integer value).render.toList = c :: cs ∧ (c = '-' ∨ Decimal.isDigit c = true) := by
  cases value with
  | ofNat n =>
    obtain ⟨d, ds, hdigits, hd⟩ := Decimal.exists_toDigits_eq_cons n
    refine ⟨d, ds, ?_, .inr hd⟩
    rw [← hdigits, toList_render_ofNat]
  | negSucc n => exact ⟨_, _, toList_render_negSucc n, .inl rfl⟩

theorem number?_integer {value : Int} (h : (integer value).Exact) (hrest : Ends rest) :
    number? ((integer value).render.toList ++ rest) = some (integer value, rest) := by
  cases value with
  | ofNat n =>
    have hsize : n < UInt64.size := Int.ofNat_lt.1 h.2
    obtain ⟨d, ds, hdigits, hd⟩ := Decimal.exists_toDigits_eq_cons n
    have hmagnitude := magnitude?_toDigits false n hrest
    rw [integerOrReal_toDigits hsize, hdigits] at hmagnitude
    rw [toList_render_ofNat, hdigits]
    refine Eq.trans ?_ hmagnitude
    rw [List.cons_append, number?]
    rintro _ ⟨⟩
    exact absurd hd (by decide)
  | negSucc n =>
    have hsize : n + 1 ≤ UInt64.size / 2 := by
      have := h.1
      omega
    rw [toList_render_negSucc, List.cons_append, number?, magnitude?_toDigits true (n + 1) hrest,
      integerOrReal_neg_toDigits (Nat.succ_pos n) hsize]
    rfl

/-! ## Values -/

theorem skipBlanks_cons (h : isBlank c = false) : skipBlanks (c :: cs) = c :: cs := by
  rw [skipBlanks, List.dropWhile_cons, h]
  rfl

theorem isBlank_of_begins (h : c = '-' ∨ Decimal.isDigit c = true) : isBlank c = false := by
  by_contra hblank
  simp only [isBlank, Bool.not_eq_false, Bool.or_eq_true, decide_eq_true_eq] at hblank
  rcases hblank with ((rfl | rfl) | rfl) | rfl <;> exact absurd h (by decide)

theorem value?_eq_number? (fuel : Nat) (h : c = '-' ∨ Decimal.isDigit c = true) (cs : List Char) :
    value? (fuel + 1) (c :: cs) = number? (c :: cs) := by
  rw [value?, skipBlanks_cons (isBlank_of_begins h)]
  split
  case h_7 => rfl
  all_goals
    rename_i heq
    cases heq
    exact absurd h (by decide)

theorem toList_render_str (text : String) :
    (string (some text)).render.toList = '"' :: (text.toList.flatMap escaped ++ ['"']) := by
  simp [render, write, toList_writeString]

/-- The text of a value begins with no blank, and with nothing that closes
an array. -/
theorem exists_render_eq_cons (h : j.Exact) :
    ∃ c cs, j.render.toList = c :: cs ∧ isBlank c = false ∧ c ≠ ']' := by
  cases j with
  | null => exact ⟨'n', _, rfl, by decide⟩
  | bool value =>
    cases value with
    | true => exact ⟨'t', _, rfl, by decide⟩
    | false => exact ⟨'f', _, rfl, by decide⟩
  | integer value =>
    obtain ⟨c, cs, htext, hbegins⟩ := exists_render_integer_eq_cons value
    refine ⟨c, cs, htext, isBlank_of_begins hbegins, ?_⟩
    rintro rfl
    exact absurd hbegins (by decide)
  | real => cases h
  | string text =>
    obtain ⟨text, rfl⟩ := Option.isSome_iff_exists.1 h
    exact ⟨_, _, toList_render_str text, by decide⟩
  | array items => exact ⟨_, _, toList_render_array items, by decide⟩
  | object fields => exact ⟨_, _, toList_render_object fields, by decide⟩

theorem length_render_pos (h : j.Exact) : 0 < j.render.toList.length := by
  obtain ⟨c, cs, htext, -⟩ := exists_render_eq_cons h
  rw [htext]
  exact Nat.succ_pos _

variable {item value : Json} {name : String} {items : List Json}
  {fields : List (Option String × Json)} {found : List Json}
  {foundFields : List (Option String × Json)}

theorem items?_next (h : value? fuel cs = some (item, ',' :: rest)) :
    items? (fuel + 1) found cs = items? fuel (item :: found) rest := by
  rw [items?, h]
  rfl

theorem items?_last (h : value? fuel cs = some (item, ']' :: rest)) :
    items? (fuel + 1) found cs = some ((item :: found).reverse, rest) := by
  rw [items?, h]
  rfl

theorem fields?_next (h : value? fuel cs = some (value, ',' :: rest)) :
    fields? (fuel + 1) foundFields ('"' :: (name.toList.flatMap escaped ++ '"' :: ':' :: cs)) =
      fields? fuel ((some name, value) :: foundFields) rest := by
  have hcolon : isBlank ':' = false := by decide
  have hcomma : isBlank ',' = false := by decide
  have hquote : isBlank '"' = false := by decide
  simp only [fields?, skipBlanks_cons, hquote, string?_escaped, hcolon, h, hcomma]

theorem fields?_last (h : value? fuel cs = some (value, '\x7d' :: rest)) :
    fields? (fuel + 1) foundFields ('"' :: (name.toList.flatMap escaped ++ '"' :: ':' :: cs)) =
      some (((some name, value) :: foundFields).reverse, rest) := by
  have hcolon : isBlank ':' = false := by decide
  have hbrace : isBlank '\x7d' = false := by decide
  have hquote : isBlank '"' = false := by decide
  simp only [fields?, skipBlanks_cons, hquote, string?_escaped, hcolon, h, hbrace]

theorem value?_array (hblank : isBlank c = false) (hc : c ≠ ']')
    (h : items? fuel [] (c :: cs) = some (items, rest)) :
    value? (fuel + 1) ('[' :: c :: cs) = some (.array items, rest) := by
  have hbracket : isBlank '[' = false := by decide
  simp only [value?, skipBlanks_cons, hbracket, hblank]
  split
  · rename_i heq
    cases heq
    exact absurd rfl hc
  · rw [h, Option.map_some]

theorem value?_object (h : fields? fuel [] ('"' :: cs) = some (fields, rest)) :
    value? (fuel + 1) ('\x7b' :: '"' :: cs) = some (.object fields, rest) := by
  have hbrace : isBlank '\x7b' = false := by decide
  have hquote : isBlank '"' = false := by decide
  simp only [value?, skipBlanks_cons, hbrace, hquote]
  show (fields? fuel [] ('"' :: cs)).map _ = _
  rw [h, Option.map_some]

/-! The last item of a list ends at the bracket and every other one at a comma,
so a list is split after its first two items.  The reader of a value has one
step less than the reader of the list, and the comma pays for the next item. -/

mutual
/-- A value is read back from its text. -/
theorem value?_render (j : Json) (h : j.Exact) (fuel : Nat) (rest : List Char)
    (hfuel : 2 * j.render.toList.length ≤ fuel + 1) (hrest : Ends rest) :
    value? fuel (j.render.toList ++ rest) = some (j, rest) := by
  have hlength := length_render_pos h
  obtain ⟨fuel, rfl⟩ := Nat.exists_eq_succ_of_ne_zero (n := fuel) (by omega)
  match j with
  | .null => rfl
  | .bool true => rfl
  | .bool false => rfl
  | .integer value =>
    obtain ⟨c, cs, htext, hbegins⟩ := exists_render_integer_eq_cons value
    have hnumber := number?_integer h hrest
    rw [htext, List.cons_append] at hnumber ⊢
    rw [value?_eq_number? fuel hbegins, hnumber]
  | .string (some text) =>
    have hquote : isBlank '"' = false := by decide
    rw [toList_render_str]
    simp [value?, skipBlanks_cons hquote, string?_escaped]
  | .array [] => rfl
  | .array (j :: js) =>
    rw [toList_render_array, List.length_cons, List.length_append] at hfuel
    have hread := items?_writeItems (j :: js) (by simp) h fuel [] rest (by omega)
    obtain ⟨c, cs, htext, hblank, hc⟩ := exists_render_eq_cons h.1
    rw [toList_render_array, List.cons_append, List.append_assoc, List.singleton_append]
    rw [toList_writeItems_cons, htext] at hread ⊢
    exact value?_array hblank hc hread
  | .object [] => rfl
  | .object ((some name, value) :: fields) =>
    rw [toList_render_object, List.length_cons, List.length_append] at hfuel
    have hread := fields?_writeFields ((some name, value) :: fields) (by simp) h fuel [] rest
      (by omega)
    rw [toList_render_object, List.cons_append, List.append_assoc, List.singleton_append]
    rw [toList_writeFields_cons] at hread ⊢
    exact value?_object hread

theorem items?_writeItems (items : List Json) (hne : items ≠ []) (h : ExactItems items)
    (fuel : Nat) (found : List Json) (rest : List Char)
    (hfuel : 2 * (writeItems "" items "").toList.length ≤ fuel) :
    items? fuel found ((writeItems "" items "").toList ++ ']' :: rest) =
      some (found.reverse ++ items, rest) := by
  match items with
  | [j] =>
    have hlength := length_render_pos h.1
    rw [toList_writeItems_singleton] at hfuel ⊢
    obtain ⟨fuel, rfl⟩ := Nat.exists_eq_succ_of_ne_zero (n := fuel) (by omega)
    rw [items?_last (value?_render j h.1 fuel _ (by omega) (ends_cons (by decide)))]
    simp
  | j₁ :: j₂ :: js =>
    rw [toList_writeItems_cons_cons] at hfuel ⊢
    rw [List.length_append, List.length_cons] at hfuel
    obtain ⟨fuel, rfl⟩ := Nat.exists_eq_succ_of_ne_zero (n := fuel) (by omega)
    rw [List.append_assoc, List.cons_append,
      items?_next (value?_render j₁ h.1 fuel _ (by omega) (ends_cons (by decide))),
      items?_writeItems (j₂ :: js) (by simp) h.2 fuel _ _ (by omega)]
    simp

theorem fields?_writeFields (fields : List (Option String × Json)) (hne : fields ≠ [])
    (h : ExactFields fields) (fuel : Nat) (found : List (Option String × Json)) (rest : List Char)
    (hfuel : 2 * (writeFields "" fields "").toList.length ≤ fuel) :
    fields? fuel found ((writeFields "" fields "").toList ++ '\x7d' :: rest) =
      some (found.reverse ++ fields, rest) := by
  match fields with
  | [(some name, value)] =>
    rw [toList_writeFields_singleton] at hfuel ⊢
    simp only [List.length_append, List.length_cons, List.cons_append, List.append_assoc]
      at hfuel ⊢
    obtain ⟨fuel, rfl⟩ := Nat.exists_eq_succ_of_ne_zero (n := fuel) (by omega)
    rw [fields?_last (value?_render value h.2.1 fuel _ (by omega) (ends_cons (by decide)))]
    simp
  | (some name₁, value₁) :: (some name₂, value₂) :: fields =>
    rw [toList_writeFields_cons_cons] at hfuel ⊢
    simp only [List.length_append, List.length_cons, List.cons_append, List.append_assoc]
      at hfuel ⊢
    obtain ⟨fuel, rfl⟩ := Nat.exists_eq_succ_of_ne_zero (n := fuel) (by omega)
    rw [fields?_next (value?_render value₁ h.2.1 fuel _ (by omega) (ends_cons (by decide))),
      fields?_writeFields ((some name₂, value₂) :: fields) (by simp) h.2.2 fuel _ _ (by omega)]
    simp
end

end Reader

/-- A value whose text determines it is read back from its text. -/
theorem parse?_render (h : j.Exact) : parse? j.render = some j := by
  have hread := value?_render j h (2 * j.render.toList.length + 2) [] (by omega) ends_nil
  rw [List.append_nil] at hread
  rw [parse?, hread]
  rfl

end SymLift.Json
