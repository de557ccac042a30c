import Mathlib.Data.List.TakeDrop
import Mathlib.Data.List.TakeWhile
import SymLift.Decimal

/-!
# Digits of numbers

A number that is written in decimal digits is read back from them, whatever
follows.

* `span_append`: a run of characters of one kind is read up to the first of
  another kind.  `exists_eq_append_span` says that every list starts with one.
* `below?_eq_some_iff` and `signedBelow?_eq_some_iff`: what spells a number is
  what is read as that number.
* `spells_toDigits`: the digits of a number spell it.
-/

namespace SymLift.Decimal

variable {cs ds rest : List Char} {p : Char → Bool} {n bound : Nat}

/-- No character follows, or one that is not of the kind `p`. -/
def EndsRun (p : Char → Bool) (rest : List Char) : Prop := ∀ c ∈ rest.head?, p c = false

theorem endsRun_nil : EndsRun p [] := by
  intro c hc
  cases hc

theorem endsRun_cons {c : Char} (h : p c = false) : EndsRun p (c :: rest) := by
  intro d hd
  cases hd
  exact h

/-- A run of one kind of character ends where another kind begins. -/
theorem span_append (hcs : ∀ c ∈ cs, p c = true) (hrest : EndsRun p rest) :
    (cs ++ rest).span p = (cs, rest) := by
  have hends : rest.takeWhile p = [] ∧ rest.dropWhile p = rest := by
    cases rest with
    | nil => exact ⟨rfl, rfl⟩
    | cons c rest =>
      have hc : p c = false := hrest c rfl
      rw [List.takeWhile_cons, List.dropWhile_cons, hc]
      exact ⟨rfl, rfl⟩
  rw [List.span_eq_takeWhile_dropWhile, List.takeWhile_append_of_pos hcs,
    List.dropWhile_append_of_pos hcs, hends.1, hends.2, List.append_nil]

/-- Every list starts with a run of one kind of character. -/
theorem exists_eq_append_span (p : Char → Bool) (cs : List Char) :
    ∃ run rest, cs = run ++ rest ∧ (∀ c ∈ run, p c = true) ∧ EndsRun p rest := by
  refine ⟨cs.takeWhile p, cs.dropWhile p, List.takeWhile_append_dropWhile.symm,
    fun c hc => List.mem_takeWhile_imp hc, fun c hc => ?_⟩
  have hstop := List.head?_dropWhile_not p cs
  rw [Option.mem_def.1 hc] at hstop
  simpa using hstop

/-- Where all characters are checked, none of them is a digit. -/
theorem not_isDigit_of_all (h : (cs.all fun c => !isDigit c) = true) :
    ∀ c ∈ cs, isDigit c = false := by
  simpa using h

/-! ## What spells a number -/

/-- A non-empty run of digits spells a number below a bound. -/
structure Spells (bound : Nat) (cs : List Char) (n : Nat) : Prop where
  ne_nil : cs ≠ []
  isDigit_of_mem : ∀ c ∈ cs, isDigit c = true
  value_eq : value cs = n
  lt : n < bound

/-- At most one plus sign and then digits spell a number below a bound. -/
def SpellsSigned (bound : Nat) (cs : List Char) (n : Nat) : Prop :=
  ∃ digits, (cs = digits ∨ cs = '+' :: digits) ∧ Spells bound digits n

/-- The first digit of a number is no sign. -/
theorem Spells.exists_eq_cons (h : Spells bound cs n) : ∃ d ds, cs = d :: ds ∧ isDigit d = true := by
  obtain ⟨d, ds, hcons⟩ := List.exists_cons_of_ne_nil h.ne_nil
  exact ⟨d, ds, hcons, h.isDigit_of_mem d (hcons ▸ List.mem_cons_self)⟩

theorem Spells.signed (h : Spells bound cs n) : SpellsSigned bound cs n := ⟨cs, .inl rfl, h⟩

theorem SpellsSigned.lt (h : SpellsSigned bound cs n) : n < bound := by
  obtain ⟨digits, -, hdigits⟩ := h
  exact hdigits.lt

theorem below?_eq_some_iff : below? bound cs = some n ↔ Spells bound cs n := by
  rw [below?]
  constructor
  · intro h
    split at h
    · rename_i hread
      cases h
      exact ⟨hread.1, List.all_eq_true.1 hread.2.1, rfl, hread.2.2⟩
    · cases h
  · rintro ⟨hne, hdigits, rfl, hlt⟩
    exact if_pos ⟨hne, List.all_eq_true.2 hdigits, hlt⟩

theorem signedBelow?_eq_some_iff : signedBelow? bound cs = some n ↔ SpellsSigned bound cs n := by
  constructor
  · intro h
    unfold signedBelow? at h
    split at h
    · rename_i digits
      exact ⟨digits, .inr rfl, below?_eq_some_iff.1 h⟩
    · exact (below?_eq_some_iff.1 h).signed
  · rintro ⟨digits, rfl | rfl, hdigits⟩
    · obtain ⟨d, ds, rfl, hd⟩ := hdigits.exists_eq_cons
      have hsign : d ≠ '+' := by
        rintro rfl
        exact absurd hd (by decide)
      rw [signedBelow?]
      · exact below?_eq_some_iff.2 hdigits
      · rintro _ ⟨⟩
        exact hsign rfl
    · exact below?_eq_some_iff.2 hdigits

/-! ## The digits of a number -/

theorem isDigit_of_mem_toDigits {c : Char} (h : c ∈ Nat.toDigits 10 n) : isDigit c = true :=
  Nat.isDigit_of_mem_toDigits (by decide) (by decide) h

theorem value_toDigits (n : Nat) : value (Nat.toDigits 10 n) = n :=
  Nat.ofDigitChars_ten_toDigits

/-- The digits of a number spell it. -/
theorem spells_toDigits (h : n < bound) : Spells bound (Nat.toDigits 10 n) n where
  ne_nil := Nat.toDigits_ne_nil
  isDigit_of_mem _ := isDigit_of_mem_toDigits
  value_eq := value_toDigits n
  lt := h

/-- The digits of a number are read up to the first other character. -/
theorem span_toDigits (n : Nat) (hrest : EndsRun isDigit rest) :
    (Nat.toDigits 10 n ++ rest).span isDigit = (Nat.toDigits 10 n, rest) :=
  span_append (fun _ => isDigit_of_mem_toDigits) hrest

theorem exists_toDigits_eq_cons (n : Nat) :
    ∃ d ds, Nat.toDigits 10 n = d :: ds ∧ isDigit d = true :=
  (spells_toDigits n.lt_succ_self).exists_eq_cons

end SymLift.Decimal
