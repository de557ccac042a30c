import SymLift.Proofs.Valuation

/-!
# What evaluation reads

The value of a well-formed term depends on the variables that `Term.freeVars`
lists, and on no more of their numbers than the low bits.

* `HasSort.hasValue_or_undetermined`: a well-formed term has a value of its
  sort, or a variable that it reads has no number.  It never has a fault.
* `mem_freeVars_iff`: the variables that are listed are those that occur.
* `covers_of_agree`: models that agree up to the widest occurrence of each
  name give every occurrence the same low bits.
* `reads_low_bits` puts these together.
-/

namespace SymLift

/-- A value is of a sort.  A bit-vector is a number of its width. -/
inductive Value.HasSort : Value → TermSort → Prop where
  | bool (value : Bool) : HasSort (.bool value) .bool
  | word {value width : Nat} (lt : value < 2 ^ width) : HasSort (.word value width) (.bitVec width)

/-- Two models both leave a name without a number, or give it numbers with
the same `width` low bits. -/
def Model.Agree (m m' : Model) (name : String) (width : Nat) : Prop :=
  (m name).map (· % 2 ^ width) = (m' name).map (· % 2 ^ width)

namespace Term

variable {m m' : Model} {t : Term} {s : TermSort} {name : String} {v : Value}

/-! ## A well-formed term has no fault -/

theorem HasValue.exists_eval (h : t.HasValue m s) : ∃ v, t.eval m = .ok v ∧ v.HasSort s := by
  cases s with
  | bool =>
    obtain ⟨b, hb⟩ := h
    exact ⟨_, hb, .bool b⟩
  | bitVec w =>
    obtain ⟨x, hx⟩ := h
    exact ⟨_, hx.eval_eq, .word x.isLt⟩

/-- The first term without a truth leaves the list without truths. -/
theorem exists_truths_or_undetermined {terms : List Term}
    (h : ∀ t ∈ terms, t.HasValue m .bool ∨ t.eval m = .error .undetermined) :
    (∀ t ∈ terms, t.HasValue m .bool) ∨ evalAll m terms = .error .undetermined := by
  induction terms with
  | nil => exact .inl (List.forall_mem_nil _)
  | cons t terms ih =>
    obtain ⟨ht, hterms⟩ := List.forall_mem_cons.1 h
    rcases ht with ⟨b, hb⟩ | hstuck
    · rcases ih hterms with hall | hstuck
      · exact .inl (List.forall_mem_cons.2 ⟨⟨b, hb⟩, hall⟩)
      · refine .inr ?_
        rw [evalAll, show t.eval m = .ok (.bool b) from hb, hstuck]
        rfl
    · refine .inr ?_
      rw [evalAll, hstuck]
      rfl

/-- A well-formed term has a value of its sort, or lacks the number of a
variable. -/
theorem HasSort.hasValue_or_undetermined (h : t.HasSort s) (m : Model) :
    t.HasValue m s ∨ t.eval m = .error .undetermined := by
  induction h with
  | const pos le lt => exact .inl ⟨_, .const le (Word.size_eq le ▸ lt)⟩
  | bool value => exact .inl ⟨value, decides_bool value⟩
  | @var width name pos le =>
    cases hvalue : m name with
    | some value => exact .inl ⟨_, .var le hvalue⟩
    | none => exact .inr (by rw [Term.eval, hvalue])
  | unary op _ ih =>
    rcases ih with ⟨x, hx⟩ | hstuck
    · exact .inl ⟨_, hx.unary op⟩
    · exact .inr (by rw [Term.eval, hstuck]; rfl)
  | binary op _ _ ihLeft ihRight =>
    rcases ihLeft with ⟨x, hx⟩ | hstuck
    · rcases ihRight with ⟨y, hy⟩ | hstuck
      · exact .inl ⟨_, hx.binary op hy⟩
      · exact .inr (by rw [Term.eval, hx.eval_eq, hstuck]; rfl)
    · exact .inr (by rw [Term.eval, hstuck]; rfl)
  | compare op _ _ ihLeft ihRight =>
    rcases ihLeft with ⟨x, hx⟩ | hstuck
    · rcases ihRight with ⟨y, hy⟩ | hstuck
      · exact .inl ⟨_, hx.compare op hy⟩
      · exact .inr (by rw [Term.eval, hx.eval_eq, hstuck]; rfl)
    · exact .inr (by rw [Term.eval, hstuck]; rfl)
  | not _ ih =>
    rcases ih with ⟨b, hb⟩ | hstuck
    · exact .inl ⟨_, hb.not⟩
    · exact .inr (by rw [Term.eval, hstuck]; rfl)
  | conj _ ih =>
    rcases exists_truths_or_undetermined ih with hall | hstuck
    · exact .inl (connects_conj.exists_decides hall)
    · exact .inr (by rw [Term.eval, hstuck]; rfl)
  | disj _ ih =>
    rcases exists_truths_or_undetermined ih with hall | hstuck
    · exact .inl (connects_disj.exists_decides hall)
    · exact .inr (by rw [Term.eval, hstuck]; rfl)
  | @ite cond thenArm elseArm sort _ hthen _ ihCond ihThen ihElse =>
    rcases ihCond with ⟨b, hb⟩ | hstuck
    · -- Only the arm that is taken is evaluated, so only it has to have a value.
      have harm : (if b then thenArm else elseArm).HasValue m sort ∨
          (if b then thenArm else elseArm).eval m = .error .undetermined := by
        cases b with
        | true => exact ihThen
        | false => exact ihElse
      refine harm.imp (fun hvalue => HasValue.ite_of_arm hb hvalue hthen.sort_eq) fun hstuck => ?_
      rw [Term.eval_ite hb, ← hstuck]
      cases b <;> rfl
    · exact .inr (by rw [Term.eval, hstuck]; rfl)
  | extract le lt _ ih =>
    rcases ih with ⟨x, hx⟩ | hstuck
    · exact .inl ⟨_, hx.extract le lt⟩
    · exact .inr (by rw [Term.eval, hstuck]; rfl)
  | concat _ _ le ihHigh ihLow =>
    rcases ihHigh with ⟨x, hx⟩ | hstuck
    · rcases ihLow with ⟨y, hy⟩ | hstuck
      · exact .inl ⟨_, hx.concat hy le⟩
      · exact .inr (by rw [Term.eval, hx.eval_eq, hstuck]; rfl)
    · exact .inr (by rw [Term.eval, hstuck]; rfl)
  | zeroExt _ le ih =>
    rcases ih with ⟨x, hx⟩ | hstuck
    · exact .inl ⟨_, hx.zeroExt le⟩
    · exact .inr (by rw [Term.eval, hstuck]; rfl)
  | signExt _ le ih =>
    rcases ih with ⟨x, hx⟩ | hstuck
    · exact .inl ⟨_, hx.signExt le⟩
    · exact .inr (by rw [Term.eval, hstuck]; rfl)

/-! ## The variables that are listed -/

/-- The variables that are listed are those that occur. -/
theorem mem_freeVars_iff : name ∈ t.freeVars ↔ ∃ width, (name, width) ∈ t.occurrences := by
  rw [freeVars, Std.TreeMap.mem_iff_isSome_getElem?, getElem?_collectVariables,
    Std.TreeMap.getElem?_emptyc, Option.or_none, List.lookup_isSome_iff]
  constructor
  · rintro ⟨p, hp, hname⟩
    exact ⟨p.2, eq_of_beq hname ▸ hp⟩
  · rintro ⟨width, hp⟩
    exact ⟨(name, width), hp, beq_self_eq_true name⟩

/-- A name that occurs has a widest occurrence. -/
theorem exists_isGreatest_width (h : name ∈ t.freeVars) :
    ∃ width, IsGreatest {w | (name, w) ∈ t.occurrences} width := by
  have hfinite : {w | (name, w) ∈ t.occurrences}.Finite :=
    (t.occurrences.map Prod.snd).finite_toSet.subset fun w hw => List.mem_map.2 ⟨(name, w), hw, rfl⟩
  have hne : {w | (name, w) ∈ t.occurrences}.Nonempty := mem_freeVars_iff.1 h
  exact ⟨_, hne.csSup_mem hfinite, fun w hw => le_csSup hfinite.bddAbove hw⟩

end Term

namespace Model

variable {m m' : Model} {name : String} {v w : Nat}

theorem Agree.symm (h : m.Agree m' name w) : m'.Agree m name w := Eq.symm h

/-- Equal low bits are equal further down. -/
theorem Agree.exists_truncate_eq (h : m.Agree m' name w) (le : v ≤ w) {value : Nat}
    (hvalue : m name = some value) :
    ∃ value', m' name = some value' ∧ Word.truncate v value' = Word.truncate v value := by
  rw [Agree, hvalue, Option.map_some] at h
  obtain ⟨value', hvalue', hlow⟩ := Option.map_eq_some_iff.1 h.symm
  have hdvd : Word.size v ∣ 2 ^ w := Nat.pow_dvd_pow 2 ((Nat.min_le_left _ _).trans le)
  refine ⟨value', hvalue', ?_⟩
  rw [Word.truncate, Word.truncate, ← Nat.mod_mod_of_dvd value' hdvd, hlow,
    Nat.mod_mod_of_dvd value hdvd]

end Model

namespace Term

variable {m m' : Model} {t : Term} {s : TermSort} {name : String} {v : Value}

/-- Models that agree up to the widest occurrence of each name give every
occurrence the same low bits. -/
theorem covers_of_agree (h : ∀ name ∈ t.freeVars, ∀ width,
    IsGreatest {w | (name, w) ∈ t.occurrences} width → m.Agree m' name width) :
    m.Covers m' t.occurrences := by
  rintro ⟨name, w⟩ hp value hvalue
  have hname : name ∈ t.freeVars := mem_freeVars_iff.2 ⟨w, hp⟩
  obtain ⟨width, hgreatest⟩ := exists_isGreatest_width hname
  exact (h name hname width hgreatest).exists_truncate_eq (hgreatest.2 hp) hvalue

/-! ## The value of a term -/

theorem HasSort.eval_congr (h : t.HasSort s) (hto : m.Covers m' t.occurrences)
    (hfrom : m'.Covers m t.occurrences) : t.eval m = t.eval m' := by
  rcases h.hasValue_or_undetermined m with hvalue | hstuck
  · obtain ⟨v, hv, -⟩ := hvalue.exists_eval
    rw [hv, h.eval_transfer hto hv]
  · rcases h.hasValue_or_undetermined m' with hvalue | hstuck'
    · obtain ⟨v, hv, -⟩ := hvalue.exists_eval
      rw [hv, h.eval_transfer hfrom hv]
    · rw [hstuck, hstuck']

/-- Evaluation of a well-formed term reads the low bits of the variables that
are listed, and nothing else of a model.  If these have numbers, the term has
a value of its sort.  Models that agree on each of them, up to its widest
occurrence, give the term the same value, or both give it none.  A value that
a term has stays what it is when a model is extended. -/
theorem reads_low_bits (h : t.HasSort s) :
    (∀ m : Model, (∀ name ∈ t.freeVars, ∃ value, m name = some value) →
      ∃ v, t.eval m = .ok v ∧ v.HasSort s) ∧
    (∀ m m' : Model, (∀ name ∈ t.freeVars, ∀ width,
        IsGreatest {w | (name, w) ∈ t.occurrences} width → m.Agree m' name width) →
      t.eval m = t.eval m') ∧
    ∀ (m m' : Model) (v : Value), (∀ name value, m name = some value → m' name = some value) →
      t.eval m = .ok v → t.eval m' = .ok v := by
  refine ⟨fun m hm => ?_, fun m m' hagree => ?_, fun m m' v hextends hv => ?_⟩
  · exact (h.hasValue fun p hp => hm p.1 (mem_freeVars_iff.2 ⟨p.2, hp⟩)).exists_eval
  · exact h.eval_congr (covers_of_agree hagree)
      (covers_of_agree fun name hname width hwidth => (hagree name hname width hwidth).symm)
  · exact h.eval_transfer (fun p _ value hvalue => ⟨value, hextends _ _ hvalue, rfl⟩) hv

/-- A choice that reads `x` at two widths, and `y` only if `x` is large. -/
def twoWidths : Term :=
  .ite (.compare .ult (.var "x" 8) (.const 16 8)) (.extract 9 2 (.var "x" 16))
    (.zeroExt 4 (.var "y" 4))

theorem hasSort_twoWidths : twoWidths.HasSort (.bitVec 8) := by
  have hx (w : Nat) (pos : 0 < w) (le : w ≤ 128) : (Term.var "x" w).HasSort (.bitVec w) :=
    .var "x" pos le
  have hy : (Term.var "y" 4).HasSort (.bitVec 4) := .var "y" (by decide) (by decide)
  have hlimit : (Term.const 16 8).HasSort (.bitVec 8) := .const (by decide) (by decide) (by decide)
  exact .ite (.compare .ult (hx 8 (by decide) (by decide)) hlimit)
    (.extract (by decide) (by decide) (hx 16 (by decide) (by decide))) (.zeroExt hy (by decide))

/-- Sixteen bits of `x` count, although it is compared at eight, and `y` needs
no number here. -/
theorem reads_low_bits_twoWidths :
    twoWidths.eval (Model.ofList [("x", 0x103)]) = .ok (.word 0x40 8) ∧
      twoWidths.eval (Model.ofList [("x", 0x70103)]) = .ok (.word 0x40 8) ∧
      twoWidths.eval (Model.ofList [("x", 0x103), ("y", 5)]) = .ok (.word 0x40 8) := by
  obtain ⟨-, hagree, hextends⟩ := reads_low_bits hasSort_twoWidths
  have hvalue : twoWidths.eval (Model.ofList [("x", 0x103)]) = .ok (.word 0x40 8) := by decide
  refine ⟨hvalue, ?_, hextends _ _ _ (fun name value hname => ?_) hvalue⟩
  · rw [← hvalue]
    refine hagree _ _ fun name hname width hwidth => ?_
    have hoccurs : name = "x" ∧ width = 8 ∨ name = "x" ∧ width = 16 ∨ name = "y" ∧ width = 4 := by
      simpa [twoWidths] using hwidth.1
    rcases hoccurs with ⟨rfl, rfl⟩ | ⟨rfl, rfl⟩ | ⟨rfl, rfl⟩
    · have hwide : (16 : Nat) ≤ 8 := hwidth.2 (by simp [twoWidths])
      exact absurd hwide (by decide)
    · rfl
    · rfl
  · by_cases hx : name = "x"
    · subst hx
      exact hname
    · simp [Model.ofList, List.lookup_cons, beq_eq_false_iff_ne.2 hx] at hname

end Term

end SymLift
