import SymLift.IR.Op
import SymLift.Proofs.Decimals

/-!
# The grammar of operator names

`Op.Names` is the grammar of names without `Iop_`, with one rule for each of
the three patterns.  `Op.parse` accepts exactly the names of the grammar.

* `parseBody?_append`: the first digits of a name are its first width, and
  what stands before them tells which rule the name can follow.
* `Names.parseBody?_eq`: a name of the grammar is read as its operator.
* `names_of_parseBody?`: what is read follows the grammar.
* `parse_accepts_grammar` puts these together.
-/

namespace SymLift.IR

open Decimal (EndsRun Spells SpellsSigned isDigit endsRun_nil endsRun_cons)

namespace Family

/-- The texts around the width of a name tell its family. -/
theorem ofAffixes?_affixes (family : Family) :
    ofAffixes? family.affixes.1.toList family.affixes.2.toList = some family := by
  cases family <;> decide

theorem affixes_of_ofAffixes? {before after : List Char} {family : Family}
    (h : ofAffixes? before after = some family) :
    family.affixes.1.toList = before ∧ family.affixes.2.toList = after := by
  simpa using List.find?_some h

end Family

namespace Op

/-- The operator is more than a name. -/
def Modeled : Op → Prop
  | .other _ => False
  | .sized .. | .convert .. | .divMod .. => True

/-- A name without one leading `Iop_`. -/
def stem (name : String) : List Char :=
  if "Iop_".toList <+: name.toList then name.toList.drop 4 else name.toList

/-- The names of operators, without `Iop_`.  Digits spell the widths, with
leading zeros or not.  A second width may have a plus sign. -/
inductive Names : List Char → Op → Prop where
  | sized (family : Family) {digits : List Char} {width : Nat}
      (spells : Spells widthBound digits width) (mem : width ∈ widths) :
      Names (family.affixes.1.toList ++ (digits ++ family.affixes.2.toList)) (.sized family width)
  | convert (conversion : Conversion) {first second : List Char} {source target : Nat}
      (spellsSource : Spells widthBound first source)
      (spellsTarget : SpellsSigned widthBound second target)
      (memSource : source ∈ widths) (memTarget : target ∈ widths) :
      Names (first ++ (conversion.middle.toList ++ second)) (.convert conversion source target)
  | divMod (signed : Bool) {first second : List Char} {source target : Nat}
      (spellsSource : Spells widthBound first source)
      (spellsTarget : SpellsSigned widthBound second target) (memSource : source ∈ widths) :
      Names ((divModText signed).toList ++ (first ++ ("to".toList ++ second)))
        (.divMod signed source target)

variable {op : Op} {name : String} {before digits rest lead cs : List Char}
  {width source : Nat} {conversion : Conversion}

theorem Names.modeled (h : Names cs op) : op.Modeled := by
  cases h <;> trivial

/-! ## Texts inside a name -/

theorem after?_eq_some_iff : after? lead cs = some rest ↔ cs = lead ++ rest := by
  induction lead generalizing cs with
  | nil => simp [after?]
  | cons l lead ih =>
    cases cs with
    | nil => simp [after?]
    | cons c cs =>
      by_cases hl : l = c
      · simp [after?, hl, ih]
      · simp [after?, hl, Ne.symm hl]

theorem after?_append (lead cs : List Char) : after? lead (lead ++ cs) = some cs :=
  after?_eq_some_iff.2 rfl

/-- The reader drops one leading `Iop_`. -/
theorem after?_getD_eq_stem (name : String) :
    (after? "Iop_".toList name.toList).getD name.toList = stem name := by
  rw [stem]
  by_cases hlead : "Iop_".toList <+: name.toList
  · obtain ⟨rest, hrest⟩ := id hlead
    rw [if_pos hlead, ← hrest, after?_append]
    rfl
  · have hnone : after? "Iop_".toList name.toList = none :=
      Option.eq_none_iff_forall_ne_some.2 fun rest hrest =>
        hlead ⟨rest, (after?_eq_some_iff.1 hrest).symm⟩
    rw [if_neg hlead, hnone]
    rfl

/-- No text before a width holds a digit, and none after it begins with one. -/
theorem affixes_not_digits (family : Family) :
    (∀ c ∈ family.affixes.1.toList, isDigit c = false) ∧ family.affixes.1.toList ≠ [] ∧
      EndsRun isDigit family.affixes.2.toList := by
  refine ⟨?_, ?_, ?_⟩
  · exact Decimal.not_isDigit_of_all (by cases family <;> rfl)
  · cases family <;> exact List.cons_ne_nil _ _
  · cases family <;> first | exact endsRun_nil | exact endsRun_cons rfl

/-- The text between two widths tells the conversion. -/
theorem conversionOf?_middle (conversion : Conversion) (cs : List Char) :
    conversionOf? (conversion.middle.toList ++ cs) = some (conversion, cs) := by
  cases conversion <;> rfl

theorem conversionOf?_eq_some_iff :
    conversionOf? cs = some (conversion, rest) ↔ cs = conversion.middle.toList ++ rest := by
  constructor
  · intro h
    obtain ⟨found, -, hfound⟩ := List.exists_of_findSome?_eq_some h
    obtain ⟨rest', hrest, hpair⟩ := Option.map_eq_some_iff.1 hfound
    cases hpair
    exact after?_eq_some_iff.1 hrest
  · rintro rfl
    exact conversionOf?_middle conversion rest

/-! ## What follows the first width -/

theorem parseConversion?_eq_some_iff : parseConversion? source cs = some op ↔
    ∃ conversion second target, cs = conversion.middle.toList ++ second ∧
      SpellsSigned widthBound second target ∧ (source ∈ widths ∧ target ∈ widths) ∧
      op = .convert conversion source target := by
  simp only [parseConversion?, Option.bind_eq_bind, Option.bind_eq_some_iff, Prod.exists,
    conversionOf?_eq_some_iff, Decimal.signedBelow?_eq_some_iff, Option.ite_none_right_eq_some,
    Option.some.injEq]
  grind

theorem parseDivMod?_eq_some_iff : parseDivMod? before source cs = some op ↔
    ∃ signed target, before = (divModText signed).toList ∧ SpellsSigned widthBound cs target ∧
      op = .divMod signed source target := by
  simp only [parseDivMod?, Option.bind_eq_bind, Option.bind_eq_some_iff,
    Decimal.signedBelow?_eq_some_iff]
  constructor
  · rintro ⟨target, htarget, hop⟩
    split at hop
    · rename_i hbefore
      cases hop
      exact ⟨false, target, hbefore, htarget, rfl⟩
    · split at hop
      · rename_i hbefore
        cases hop
        exact ⟨true, target, hbefore, htarget, rfl⟩
      · cases hop
  · rintro ⟨signed, target, rfl, htarget, rfl⟩
    refine ⟨target, htarget, ?_⟩
    cases signed <;> rfl

theorem parseFamily?_eq_some_iff : parseFamily? before width cs = some op ↔
    width ∈ widths ∧ ((∃ family : Family, before = family.affixes.1.toList ∧
        cs = family.affixes.2.toList ∧ op = .sized family width) ∨
      ∃ signed second target, before = (divModText signed).toList ∧ cs = "to".toList ++ second ∧
        SpellsSigned widthBound second target ∧ op = .divMod signed width target) := by
  rw [parseFamily?, Option.ite_none_right_eq_some]
  refine and_congr_right fun hwidth => ?_
  constructor
  · intro h
    split at h
    · rename_i second hsecond
      obtain ⟨signed, target, hbefore, htarget, hop⟩ := parseDivMod?_eq_some_iff.1 h
      exact .inr ⟨signed, second, target, hbefore, after?_eq_some_iff.1 hsecond, htarget, hop⟩
    · obtain ⟨family, hfamily, hop⟩ := Option.map_eq_some_iff.1 h
      obtain ⟨hbefore, hafter⟩ := Family.affixes_of_ofAffixes? hfamily
      exact .inl ⟨family, hbefore.symm, hafter.symm, hop.symm⟩
  · rintro (⟨family, rfl, rfl, rfl⟩ | ⟨signed, second, target, rfl, rfl, htarget, rfl⟩)
    · have hnone : after? "to".toList family.affixes.2.toList = none := by
        cases family <;> decide
      rw [hnone, Family.ofAffixes?_affixes]
      rfl
    · rw [after?_append]
      exact parseDivMod?_eq_some_iff.2 ⟨signed, target, rfl, htarget, rfl⟩

/-! ## Whole names -/

/-- The first digits of a name are its first width. -/
theorem parseBody?_append (hbefore : ∀ c ∈ before, isDigit c = false)
    (hdigits : Spells widthBound digits width) (hrest : EndsRun isDigit rest) :
    parseBody? (before ++ (digits ++ rest)) =
      if before = [] then parseConversion? width rest else parseFamily? before width rest := by
  obtain ⟨d, ds, hcons, hd⟩ := hdigits.exists_eq_cons
  have hstart : EndsRun (!isDigit ·) (digits ++ rest) := by
    rw [hcons]
    exact endsRun_cons (by rw [hd]; rfl)
  have hspan := Decimal.span_append (p := (!isDigit ·))
    (fun c hc => by rw [hbefore c hc]; rfl) hstart
  rw [parseBody?, hspan]
  dsimp only
  rw [Decimal.span_append hdigits.isDigit_of_mem hrest]
  dsimp only
  rw [Decimal.below?_eq_some_iff.2 hdigits]
  cases before with
  | nil => rfl
  | cons c cs => rfl

/-- A name of the grammar is read as its operator. -/
theorem Names.parseBody?_eq (h : Names cs op) : parseBody? cs = some op := by
  cases h with
  | sized family hdigits hmem =>
    obtain ⟨hbefore, hne, hafter⟩ := affixes_not_digits family
    rw [parseBody?_append hbefore hdigits hafter, if_neg hne]
    exact parseFamily?_eq_some_iff.2 ⟨hmem, .inl ⟨family, rfl, rfl, rfl⟩⟩
  | convert conversion hsource htarget hmemSource hmemTarget =>
    rename_i first second source target
    have hmiddle : EndsRun isDigit (conversion.middle.toList ++ second) := by
      cases conversion <;> exact endsRun_cons (by decide)
    have hread := parseBody?_append (fun _ hc => absurd hc List.not_mem_nil) hsource hmiddle
    rw [if_pos rfl] at hread
    exact hread.trans (parseConversion?_eq_some_iff.2
      ⟨conversion, second, target, rfl, htarget, ⟨hmemSource, hmemTarget⟩, rfl⟩)
  | divMod signed hsource htarget hmem =>
    rename_i first second source target
    have hbefore : ∀ c ∈ (divModText signed).toList, isDigit c = false :=
      Decimal.not_isDigit_of_all (by cases signed <;> rfl)
    have hto : EndsRun isDigit ("to".toList ++ second) := endsRun_cons (by decide)
    rw [parseBody?_append hbefore hsource hto, if_neg (by cases signed <;> decide)]
    exact parseFamily?_eq_some_iff.2
      ⟨hmem, .inr ⟨signed, second, target, rfl, rfl, htarget, rfl⟩⟩

/-- What is read follows the grammar. -/
theorem names_of_parseBody? (h : parseBody? cs = some op) : Names cs op := by
  obtain ⟨before, follows, rfl, hbefore, hfollows⟩ :=
    Decimal.exists_eq_append_span (!isDigit ·) cs
  obtain ⟨digits, rest, rfl, hdigits, hrest⟩ := Decimal.exists_eq_append_span isDigit follows
  cases hread : Decimal.below? widthBound digits with
  | none =>
    rw [parseBody?, Decimal.span_append hbefore hfollows] at h
    dsimp only at h
    rw [Decimal.span_append hdigits hrest] at h
    dsimp only at h
    rw [hread] at h
    cases h
  | some width =>
    have hspells : Spells widthBound digits width := Decimal.below?_eq_some_iff.1 hread
    rw [parseBody?_append (fun c hc => by simpa using hbefore c hc) hspells hrest] at h
    split at h
    · rename_i hempty
      obtain ⟨conversion, second, target, rfl, htarget, ⟨hmemSource, hmemTarget⟩, rfl⟩ :=
        parseConversion?_eq_some_iff.1 h
      rw [hempty]
      exact .convert conversion hspells htarget hmemSource hmemTarget
    · obtain ⟨hmem, ⟨family, rfl, rfl, rfl⟩ | ⟨signed, second, target, rfl, rfl, htarget, rfl⟩⟩ :=
        parseFamily?_eq_some_iff.1 h
      · exact .sized family hspells hmem
      · exact .divMod signed hspells htarget hmem

theorem parse_eq (name : String) : parse name = (parseBody? (stem name)).getD (.other name) := by
  rw [parse, after?_getD_eq_stem]

/-- The grammar is the language of the reader.  A name of the grammar is read
as the operator of its rule, with the widths that the name spells, and no
other name is read as an operator that is more than a name.  Every other name
stands for itself, as a whole. -/
theorem parse_accepts_grammar (name : String) :
    (∀ op, Names (stem name) op ↔ parse name = op ∧ op.Modeled) ∧
      (parse name = .other name ↔ ¬∃ op, Names (stem name) op) := by
  rw [parse_eq]
  cases hbody : parseBody? (stem name) with
  | none =>
    have hnone : ∀ op, ¬Names (stem name) op := fun op hop => by
      rw [hop.parseBody?_eq] at hbody
      cases hbody
    refine ⟨fun op => ⟨fun hop => absurd hop (hnone op), ?_⟩,
      fun _ => not_exists.2 hnone, fun _ => rfl⟩
    rintro ⟨rfl, hmodeled⟩
    exact hmodeled.elim
  | some found =>
    have hfound : Names (stem name) found := names_of_parseBody? hbody
    refine ⟨fun op => ⟨fun hop => ?_, ?_⟩, ?_, fun hnone => absurd ⟨found, hfound⟩ hnone⟩
    · exact ⟨Option.some.inj (hbody.symm.trans hop.parseBody?_eq), hop.modeled⟩
    · rintro ⟨rfl, -⟩
      exact hfound
    · rintro rfl
      exact hfound.modeled.elim

/-- Only one `Iop_` is dropped. -/
example : parse "Iop_Iop_Add32" = .other "Iop_Iop_Add32" := by decide

end Op

end SymLift.IR
