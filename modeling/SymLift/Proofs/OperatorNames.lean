import Mathlib.Data.Set.Operations
import SymLift.Proofs.OperatorGrammar

/-!
# Names of operators

The name of an operator is read back as that operator, as long as its widths
are ones that a name may spell.  `Op.parse` gives no other operators, apart
from those that are only known by name.

* `HasNamedWidths.names` and `Names.hasNamedWidths`: the operators of the
  grammar are those with such widths.
* `parse_eq_other_or_hasNamedWidths`: what reading a name can give.
* `parse_name`: reading the name of what was read changes nothing.
* `parse_and_name_agree`: reading and writing names agree.
-/

namespace SymLift.IR

namespace Op

variable {op : Op} {cs : List Char} {width : Nat}

/-- The widths of an operator may stand in a name.  The second width of a
division with remainder is any number of 32 bits. -/
def HasNamedWidths : Op → Prop
  | .sized _ width => width ∈ widths
  | .convert _ source target => source ∈ widths ∧ target ∈ widths
  | .divMod _ source target => source ∈ widths ∧ target < widthBound
  | .other _ => False

theorem Names.hasNamedWidths (h : Names cs op) : op.HasNamedWidths := by
  cases h with
  | sized _ _ hmem => exact hmem
  | convert _ _ _ hmemSource hmemTarget => exact ⟨hmemSource, hmemTarget⟩
  | divMod _ _ htarget hmem => exact ⟨hmem, htarget.lt⟩

/-! ## The name of an operator -/

theorem lt_widthBound_of_mem (h : width ∈ widths) : width < widthBound := by
  have hall : ∀ w ∈ widths, w < widthBound := by decide
  exact hall width h

theorem spells_toDigits_of_mem (h : width ∈ widths) :
    Decimal.Spells widthBound (Nat.toDigits 10 width) width :=
  Decimal.spells_toDigits (lt_widthBound_of_mem h)

/-- The name of an operator follows the grammar. -/
theorem HasNamedWidths.names (h : op.HasNamedWidths) :
    ∃ cs, op.name.toList = "Iop_".toList ++ cs ∧ Names cs op := by
  cases op with
  | sized family width =>
    refine ⟨_, ?_, .sized family (spells_toDigits_of_mem h) h⟩
    simp only [name, String.toList_append, Nat.toString_eq_repr, Nat.toList_repr,
      List.append_assoc]
  | convert conversion source target =>
    refine ⟨_, ?_, .convert conversion (spells_toDigits_of_mem h.1)
      (spells_toDigits_of_mem h.2).signed h.1 h.2⟩
    simp only [name, String.toList_append, Nat.toString_eq_repr, Nat.toList_repr,
      List.append_assoc]
  | divMod signed source target =>
    refine ⟨_, ?_, .divMod signed (spells_toDigits_of_mem h.1)
      (Decimal.spells_toDigits h.2).signed h.1⟩
    simp only [name, String.toList_append, Nat.toString_eq_repr, Nat.toList_repr,
      List.append_assoc]
  | other name => exact h.elim

/-- The name of an operator is read back. -/
theorem HasNamedWidths.parse_name (h : op.HasNamedWidths) : parse op.name = op := by
  obtain ⟨cs, hname, hnames⟩ := h.names
  rw [parse, hname, after?_append]
  exact congrArg (Option.getD · _) hnames.parseBody?_eq

/-! ## What reading gives -/

/-- A name is that of an operator with widths that a name may spell, or it
stands for itself. -/
theorem parse_eq_other_or_hasNamedWidths (name : String) :
    parse name = .other name ∨ (parse name).HasNamedWidths := by
  rw [parse_eq]
  cases hbody : parseBody? (stem name) with
  | none => exact .inl rfl
  | some op => exact .inr (names_of_parseBody? hbody).hasNamedWidths

/-- The name of an operator that was read is read as the same operator. -/
theorem parse_name (name : String) : parse (parse name).name = parse name := by
  rcases parse_eq_other_or_hasNamedWidths name with hother | hnamed
  · rw [hother]
    exact hother
  · exact hnamed.parse_name

/-! ## Reading and writing -/

/-- Reading and writing names agree.  What was read is read back from its
name, so writing a name that was read changes nothing the second time.  An
operator with widths that a name may spell is read back from its name.  Two
operators that were read differ in their names. -/
theorem parse_and_name_agree :
    (∀ name, parse (parse name).name = parse name ∧
      (parse (parse name).name).name = (parse name).name) ∧
    (∀ op : Op, op.HasNamedWidths → parse op.name = op) ∧
    ∀ op₁ ∈ Set.range parse, ∀ op₂ ∈ Set.range parse, op₁.name = op₂.name → op₁ = op₂ := by
  refine ⟨fun name => ⟨parse_name name, congrArg Op.name (parse_name name)⟩,
    fun op => HasNamedWidths.parse_name, ?_⟩
  rintro _ ⟨name₁, rfl⟩ _ ⟨name₂, rfl⟩ hname
  calc
    parse name₁ = parse (parse name₁).name := (parse_name name₁).symm
    _ = parse (parse name₂).name := congrArg parse hname
    _ = parse name₂ := parse_name name₂

/-- A division whose second width is no width of a value, and two spellings
of one conversion. -/
theorem parse_and_name_agree_spellings :
    parse (divMod true 128 4294967295).name = .divMod true 128 4294967295 ∧
      parse "Iop_064HIto+32" = parse "64HIto032" := by
  obtain ⟨hread, hwritten, hinjective⟩ := parse_and_name_agree
  refine ⟨hwritten _ ⟨by decide, by decide⟩, hinjective _ ⟨_, rfl⟩ _ ⟨_, rfl⟩ ?_⟩
  decide

end Op

end SymLift.IR
