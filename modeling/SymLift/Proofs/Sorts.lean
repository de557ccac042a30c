import SymLift.Bytes

/-!
# Well-formed terms

`Term.HasSort` says that a term is well formed and of what sort: constants
are reduced, operands fit each other, and every bit-vector in it has between
one and `Word.maxBits` bits.

* `HasSort.sort_eq`: the sort that `HasSort` names is the sort that the term
  reports.
* `Fold.width_unary` to `Fold.width_resize`: the width of what a folding
  constructor builds, whether or not its operands are well formed.
* `Fold.remaining_cases` and `Fold.connect_induction`: the terms that a
  connective keeps, and what a proof about a connective has to show.
* `Fold.hasSort_lit` to `Fold.hasSort_boolToBits`: the folding constructors
  keep terms well formed.
-/

namespace SymLift

namespace Term

/-- A term is well formed and of a sort. -/
inductive HasSort : Term → TermSort → Prop where
  | const {value width : Nat} (pos : 0 < width) (le : width ≤ Word.maxBits)
      (lt : value < Word.size width) : HasSort (.const value width) (.bitVec width)
  | bool (value : Bool) : HasSort (.bool value) .bool
  | var {width : Nat} (name : String) (pos : 0 < width) (le : width ≤ Word.maxBits) :
      HasSort (.var name width) (.bitVec width)
  | unary {arg : Term} {width : Nat} (op : UnaryOp) (harg : HasSort arg (.bitVec width)) :
      HasSort (.unary op arg) (.bitVec width)
  | binary {left right : Term} {width : Nat} (op : BinaryOp)
      (hleft : HasSort left (.bitVec width)) (hright : HasSort right (.bitVec width)) :
      HasSort (.binary op left right) (.bitVec width)
  | compare {left right : Term} {width : Nat} (op : CompareOp)
      (hleft : HasSort left (.bitVec width)) (hright : HasSort right (.bitVec width)) :
      HasSort (.compare op left right) .bool
  | not {arg : Term} (harg : HasSort arg .bool) : HasSort (.not arg) .bool
  | conj {terms : List Term} (hterms : ∀ t ∈ terms, HasSort t .bool) : HasSort (.conj terms) .bool
  | disj {terms : List Term} (hterms : ∀ t ∈ terms, HasSort t .bool) : HasSort (.disj terms) .bool
  | ite {cond thenArm elseArm : Term} {sort : TermSort} (hcond : HasSort cond .bool)
      (hthen : HasSort thenArm sort) (helse : HasSort elseArm sort) :
      HasSort (.ite cond thenArm elseArm) sort
  | extract {hi lo width : Nat} {arg : Term} (le : lo ≤ hi) (lt : hi < width)
      (harg : HasSort arg (.bitVec width)) : HasSort (.extract hi lo arg) (.bitVec (hi - lo + 1))
  | concat {high low : Term} {highWidth lowWidth : Nat} (hhigh : HasSort high (.bitVec highWidth))
      (hlow : HasSort low (.bitVec lowWidth)) (le : highWidth + lowWidth ≤ Word.maxBits) :
      HasSort (.concat high low) (.bitVec (highWidth + lowWidth))
  | zeroExt {count width : Nat} {arg : Term} (harg : HasSort arg (.bitVec width))
      (le : width + count ≤ Word.maxBits) : HasSort (.zeroExt count arg) (.bitVec (width + count))
  | signExt {count width : Nat} {arg : Term} (harg : HasSort arg (.bitVec width))
      (le : width + count ≤ Word.maxBits) : HasSort (.signExt count arg) (.bitVec (width + count))

/-! ## The sort of a term -/

theorem HasSort.sort_eq {t : Term} {s : TermSort} (h : t.HasSort s) : t.sort = s := by
  induction h with
  | const | bool | var | compare | not | conj | disj | extract => rfl
  | unary _ _ ih => rw [Term.sort, ih, TermSort.width]
  | binary _ _ _ ihLeft => rw [Term.sort, ihLeft, TermSort.width]
  | ite _ _ _ _ ihThen => rw [Term.sort, ihThen]
  | concat _ _ _ ihHigh ihLow => rw [Term.sort, ihHigh, ihLow, TermSort.width, TermSort.width]
  | zeroExt _ _ ih | signExt _ _ ih => rw [Term.sort, ih, TermSort.width]

theorem HasSort.width_eq {t : Term} {w : Nat} (h : t.HasSort (.bitVec w)) : t.width = w := by
  rw [Term.width, h.sort_eq, TermSort.width]

theorem isBool_of_sort {t : Term} (h : t.sort = .bool) : t.isBool = true := by
  rw [isBool, h]

theorem HasSort.isBool {t : Term} (h : t.HasSort .bool) : t.isBool = true :=
  isBool_of_sort h.sort_eq

/-- A term of some width is a bit-vector. -/
theorem sort_of_width {t : Term} {w : Nat} (h : t.width = w) (pos : 0 < w) :
    t.sort = .bitVec w := by
  unfold width at h
  cases hsort : t.sort with
  | bool =>
    rw [hsort] at h
    exact absurd h (Nat.ne_of_lt pos)
  | bitVec v =>
    rw [hsort] at h
    exact congrArg _ h

/-- A well-formed bit-vector has between one and `Word.maxBits` bits. -/
theorem HasSort.width_bounds {t : Term} {s : TermSort} (h : t.HasSort s) :
    ∀ {w : Nat}, s = .bitVec w → 0 < w ∧ w ≤ Word.maxBits := by
  induction h with
  | const pos le | var _ pos le => rintro w ⟨⟩; exact ⟨pos, le⟩
  | bool | compare | not | conj | disj => rintro w ⟨⟩
  | unary _ _ ih => exact ih
  | binary _ _ _ ih => exact ih
  | ite _ _ _ _ ih => exact ih
  | extract le lt _ ih =>
    rintro w ⟨⟩
    have hw := ih rfl
    exact ⟨by omega, by omega⟩
  | concat _ _ le ih =>
    rintro w ⟨⟩
    have hw := ih rfl
    exact ⟨by omega, le⟩
  | zeroExt _ le ih | signExt _ le ih =>
    rintro w ⟨⟩
    have hw := ih rfl
    exact ⟨by omega, le⟩

theorem HasSort.width_pos {t : Term} {w : Nat} (h : t.HasSort (.bitVec w)) : 0 < w :=
  (h.width_bounds rfl).1

theorem HasSort.width_le {t : Term} {w : Nat} (h : t.HasSort (.bitVec w)) : w ≤ Word.maxBits :=
  (h.width_bounds rfl).2

/-! ## Constants -/

theorem constValue?_eq_some {t : Term} {value : Nat} (h : t.constValue? = some value) :
    t = .const value t.width := by
  cases t with
  | const v w => cases h; rfl
  | _ => cases h

/-- A constant address is a constant of 64 bits. -/
theorem addressValue?_eq_some_iff {t : Term} {addr : Nat} :
    t.addressValue? = some addr ↔ t.constValue? = some addr ∧ addr < UInt64.size := by
  cases t with
  | const value w =>
    rw [addressValue?, constValue?]
    constructor
    · intro h
      split at h
      · rename_i hlt
        exact ⟨h, Option.some.inj h ▸ hlt⟩
      · cases h
    · rintro ⟨h, hlt⟩
      obtain rfl := Option.some.inj h
      exact if_pos hlt
  | _ => exact iff_of_false nofun (fun h => nomatch h.1)

theorem boolValue?_eq_some {t : Term} {value : Bool} (h : t.boolValue? = some value) :
    t = .bool value := by
  cases t with
  | bool v => cases h; rfl
  | _ => cases h

end Term

namespace Fold

open Term

variable {arg left right high low cond thenArm elseArm : Term} {w v : Nat}

/-! ## Widths, well formed or not -/

theorem width_unary (op : UnaryOp) : (unary op arg).width = arg.width := by
  unfold unary
  split <;> rfl

theorem width_binary (op : BinaryOp) : (binary op left right).width = left.width := by
  unfold binary
  split <;> rfl

theorem width_extract (hi lo : Nat) : (extract hi lo arg).width = hi - lo + 1 := by
  unfold extract
  split
  · rename_i hall
    rw [← hall.2, hall.1, Nat.sub_zero]
  · split <;> rfl

theorem width_concat : (concat high low).width = high.width + low.width := by
  unfold concat
  split <;> rfl

theorem width_zeroExt (count : Nat) : (zeroExt count arg).width = arg.width + count := by
  unfold zeroExt
  split
  · rename_i hnone
    rw [hnone, Nat.add_zero]
  · split <;> rfl

theorem width_signExt (count : Nat) : (signExt count arg).width = arg.width + count := by
  unfold signExt
  split
  · rename_i hnone
    rw [hnone, Nat.add_zero]
  · split <;> rfl

theorem width_resize (pos : 0 < w) : (resize w arg).width = w := by
  unfold resize
  split
  · assumption
  · split
    · rw [width_zeroExt]
      omega
    · rw [width_extract]
      omega

theorem sort_compare (op : CompareOp) : (compare op left right).sort = .bool := by
  unfold compare
  split
  · rfl
  · split <;> rfl

/-! ## Folding constructors keep terms well formed -/

theorem hasSort_lit {value : Nat} (pos : 0 < w) (le : w ≤ Word.maxBits) :
    (lit value w).HasSort (.bitVec w) :=
  .const pos le (Word.truncate_lt w value)

theorem hasSort_unary (op : UnaryOp) (h : arg.HasSort (.bitVec w)) :
    (unary op arg).HasSort (.bitVec w) := by
  rw [unary, h.width_eq]
  split
  · exact hasSort_lit h.width_pos h.width_le
  · exact .unary op h

theorem hasSort_binary (op : BinaryOp) (hl : left.HasSort (.bitVec w))
    (hr : right.HasSort (.bitVec w)) : (binary op left right).HasSort (.bitVec w) := by
  rw [binary, hl.width_eq]
  split
  · exact hasSort_lit hl.width_pos hl.width_le
  · exact .binary op hl hr

theorem hasSort_extract {hi lo : Nat} (le : lo ≤ hi) (lt : hi < w) (h : arg.HasSort (.bitVec w)) :
    (extract hi lo arg).HasSort (.bitVec (hi - lo + 1)) := by
  have hw := h.width_le
  rw [extract, h.width_eq]
  split
  · rename_i hall
    have hwhole : hi - lo + 1 = w := by omega
    rw [hwhole]
    exact h
  · split
    · exact hasSort_lit (by omega) (by omega)
    · exact .extract le lt h

theorem hasSort_concat (hh : high.HasSort (.bitVec w)) (hl : low.HasSort (.bitVec v))
    (le : w + v ≤ Word.maxBits) : (concat high low).HasSort (.bitVec (w + v)) := by
  have hpos := hh.width_pos
  rw [concat, hh.width_eq, hl.width_eq]
  split
  · exact hasSort_lit (by omega) le
  · exact .concat hh hl le

theorem hasSort_zeroExt {count : Nat} (h : arg.HasSort (.bitVec w))
    (le : w + count ≤ Word.maxBits) : (zeroExt count arg).HasSort (.bitVec (w + count)) := by
  have hpos := h.width_pos
  rw [zeroExt, h.width_eq]
  split
  · rename_i hnone
    rw [hnone]
    exact h
  · split
    · exact hasSort_lit (by omega) le
    · exact .zeroExt h le

theorem hasSort_signExt {count : Nat} (h : arg.HasSort (.bitVec w))
    (le : w + count ≤ Word.maxBits) : (signExt count arg).HasSort (.bitVec (w + count)) := by
  have hpos := h.width_pos
  rw [signExt, h.width_eq]
  split
  · rename_i hnone
    rw [hnone]
    exact h
  · split
    · exact hasSort_lit (by omega) le
    · exact .signExt h le

theorem hasSort_resize (h : arg.HasSort (.bitVec w)) (pos : 0 < v) (le : v ≤ Word.maxBits) :
    (resize v arg).HasSort (.bitVec v) := by
  rw [resize, h.width_eq]
  split
  · rename_i hsame
    rw [← hsame]
    exact h
  · split
    · have hv : w + (v - w) = v := by omega
      have hext : (zeroExt (v - w) arg).HasSort (.bitVec (w + (v - w))) :=
        hasSort_zeroExt h (by omega)
      rwa [hv] at hext
    · have hv : v - 1 - 0 + 1 = v := by omega
      have hcut : (extract (v - 1) 0 arg).HasSort (.bitVec (v - 1 - 0 + 1)) :=
        hasSort_extract (Nat.zero_le _) (by omega) h
      rwa [hv] at hcut

theorem hasSort_shift (op : BinaryOp) {amount : Term} (h : arg.HasSort (.bitVec w))
    (ha : amount.HasSort (.bitVec v)) : (shift op arg amount).HasSort (.bitVec w) := by
  rw [shift, h.width_eq]
  exact hasSort_binary op h (hasSort_resize ha h.width_pos h.width_le)

theorem hasSort_compare (op : CompareOp) (hl : left.HasSort (.bitVec w))
    (hr : right.HasSort (.bitVec w)) : (compare op left right).HasSort .bool := by
  unfold compare
  split
  · exact .bool _
  · split
    · exact .bool _
    · exact .compare op hl hr

theorem hasSort_not (h : arg.HasSort .bool) : (not arg).HasSort .bool := by
  cases h with
  | bool value => exact .bool _
  | not harg => exact harg
  | compare op hl hr => exact .not (.compare op hl hr)
  | conj hts => exact .not (.conj hts)
  | disj hts => exact .not (.disj hts)
  | ite hc ht he => exact .not (.ite hc ht he)

/-! ### Connectives -/

section

variable {neutral : Bool} {node : List Term → Term} {terms kept : List Term}

/-- A connective is decided by the constant that is not neutral.  If that is
none of its terms, it keeps those that are no constants. -/
theorem remaining_cases (neutral : Bool) (terms : List Term) :
    (.bool (!neutral) ∈ terms ∧ remaining neutral terms = none) ∨
      (.bool (!neutral) ∉ terms ∧
        remaining neutral terms = some (terms.filter (·.boolValue?.isNone))) := by
  induction terms with
  | nil => exact .inr ⟨List.not_mem_nil, rfl⟩
  | cons u us ih =>
    rw [remaining, List.filter_cons]
    cases hu : u.boolValue? with
    | some value =>
      obtain rfl := boolValue?_eq_some hu
      by_cases hvalue : value = neutral
      · have hne : Term.bool (!neutral) ≠ .bool value := by simp [hvalue]
        dsimp only
        rw [if_pos hvalue]
        exact ih.imp (And.imp_left (List.mem_cons_of_mem _))
          (And.imp_left fun hmem => List.not_mem_cons_of_ne_of_not_mem hne hmem)
      · refine .inl ⟨?_, if_neg hvalue⟩
        rw [Bool.eq_not_of_ne hvalue]
        exact List.mem_cons_self
    | none =>
      have hne : .bool (!neutral) ≠ u := by
        rintro rfl
        cases hu
      rcases ih with ⟨hmem, hnone⟩ | ⟨hmem, hsome⟩
      · refine .inl ⟨List.mem_cons_of_mem u hmem, ?_⟩
        rw [hnone]
        rfl
      · refine .inr ⟨List.not_mem_cons_of_ne_of_not_mem hne hmem, ?_⟩
        rw [hsome]
        rfl

theorem remaining_eq_none_iff : remaining neutral terms = none ↔ .bool (!neutral) ∈ terms := by
  rcases remaining_cases neutral terms with ⟨hmem, hnone⟩ | ⟨hmem, hsome⟩
  · exact iff_of_true hnone hmem
  · refine iff_of_false ?_ hmem
    rw [hsome]
    exact Option.some_ne_none _

theorem remaining_eq_some_iff : remaining neutral terms = some kept ↔
    .bool (!neutral) ∉ terms ∧ terms.filter (·.boolValue?.isNone) = kept := by
  rcases remaining_cases neutral terms with ⟨hmem, hnone⟩ | ⟨hmem, hsome⟩
  · rw [hnone]
    exact iff_of_false nofun fun h => h.1 hmem
  · rw [hsome, Option.some_inj, and_iff_right hmem]

/-- The terms that a connective keeps are those that are no constants. -/
theorem mem_remaining_iff (h : remaining neutral terms = some kept) {t : Term} :
    t ∈ kept ↔ t ∈ terms ∧ t.boolValue? = none := by
  rw [← (remaining_eq_some_iff.1 h).2, List.mem_filter, Option.isNone_iff_eq_none]

theorem mem_of_remaining (h : remaining neutral terms = some kept) : ∀ t ∈ kept, t ∈ terms :=
  fun _ ht => ((mem_remaining_iff h).1 ht).1

/-- A term that a connective drops is the neutral constant. -/
theorem mem_or_neutral_of_remaining (h : remaining neutral terms = some kept) :
    ∀ t ∈ terms, t ∈ kept ∨ t = .bool neutral := by
  intro t ht
  cases hvalue : t.boolValue? with
  | none => exact .inl ((mem_remaining_iff h).2 ⟨ht, hvalue⟩)
  | some value =>
    obtain rfl := boolValue?_eq_some hvalue
    by_cases hneutral : value = neutral
    · exact .inr (congrArg Term.bool hneutral)
    · exact absurd (Bool.eq_not_of_ne hneutral ▸ ht) (remaining_eq_some_iff.1 h).1

/-- What holds of the neutral constant, of the terms of a connective and of
its nodes holds of it. -/
theorem connect_induction {P : Term → Prop} (hneutral : P (.bool neutral))
    (hterms : ∀ t ∈ terms, P t) (hnode : ∀ kept, (∀ t ∈ kept, t ∈ terms) → P (node kept)) :
    P (connect neutral node terms) := by
  unfold connect
  split
  · rename_i hnone
    exact hterms _ (remaining_eq_none_iff.1 hnone)
  · exact hneutral
  · rename_i t hkept
    exact hterms t (mem_of_remaining hkept t List.mem_cons_self)
  · rename_i kept _ _ hkept
    exact hnode kept (mem_of_remaining hkept)

theorem hasSort_connect
    (hnode : ∀ {kept : List Term}, (∀ t ∈ kept, t.HasSort .bool) → (node kept).HasSort .bool)
    (h : ∀ t ∈ terms, t.HasSort .bool) : (connect neutral node terms).HasSort .bool :=
  connect_induction (.bool neutral) h fun _ hkept => hnode fun t ht => h t (hkept t ht)

end

theorem hasSort_conj {terms : List Term} (h : ∀ t ∈ terms, t.HasSort .bool) :
    (conj terms).HasSort .bool :=
  hasSort_connect .conj h

theorem hasSort_disj {terms : List Term} (h : ∀ t ∈ terms, t.HasSort .bool) :
    (disj terms).HasSort .bool :=
  hasSort_connect .disj h

theorem hasSort_ite {s : TermSort} (hc : cond.HasSort .bool) (ht : thenArm.HasSort s)
    (he : elseArm.HasSort s) : (ite cond thenArm elseArm).HasSort s := by
  unfold ite
  split
  · exact ht
  · exact he
  · split
    · exact ht
    · exact .ite hc ht he

theorem hasSort_boolToBits (h : cond.HasSort .bool) (pos : 0 < w) (le : w ≤ Word.maxBits) :
    (boolToBits w cond).HasSort (.bitVec w) :=
  hasSort_ite h (hasSort_lit pos le) (hasSort_lit pos le)

end Fold

end SymLift
