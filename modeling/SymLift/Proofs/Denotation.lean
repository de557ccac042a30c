import SymLift.Proofs.Results
import SymLift.Proofs.Sorts
import SymLift.Proofs.Words
import SymLift.Term.Eval

/-!
# What a term denotes

`Term.Denotes m t x` says that `t` is a bit-vector whose value under the
model `m` is `x`, and `Term.Decides m t b` that `t` is a boolean whose value
is `b`.  Both speak of the sort as well, since the constructors read it.

There are three groups of lemmas.

* `Denotes.const` to `Denotes.signExt` give the value of a node from the
  values of its parts, and `Connects` says it of the two connectives.
* `Fold.denotes_lit` to `Fold.denotes_boolToBits` give the value of what a
  folding constructor builds, whatever it simplified.  They state the same
  values, so a fold and an evaluation cannot disagree.
* `HasNumber` leaves the sort out, for terms of which only the truth of a
  comparison is known.

Every width is at most `Word.maxBits`.  `Denotes` keeps that bound, and only
the nodes that grow a width ask for it.
-/

namespace SymLift

namespace Term

/-- The value of a bit-vector under a model. -/
structure Denotes (m : Model) (t : Term) {w : Nat} (x : BitVec w) : Prop where
  sort_eq : t.sort = .bitVec w
  width_le : w ≤ Word.maxBits
  eval_eq : t.eval m = .ok (.word x.toNat w)

/-- The value of a boolean under a model. -/
def Decides (m : Model) (t : Term) (b : Bool) : Prop := t.eval m = .ok (.bool b)

variable {m : Model} {t arg left right high low cond thenArm elseArm : Term} {w v : Nat}
  {x : BitVec w} {y : BitVec v} {b : Bool}

theorem Denotes.width_eq (h : t.Denotes m x) : t.width = w := by
  rw [Term.width, h.sort_eq, TermSort.width]

/-- A bit-vector has one value. -/
theorem Denotes.unique {z : BitVec w} (hx : t.Denotes m x) (hz : t.Denotes m z) : x = z := by
  have h := hx.eval_eq.symm.trans hz.eval_eq
  simp only [Except.ok.injEq, Value.word.injEq, and_true] at h
  exact BitVec.eq_of_toNat_eq h

/-- A boolean has one value. -/
theorem Decides.unique {c : Bool} (hb : t.Decides m b) (hc : t.Decides m c) : b = c := by
  have h := hb.symm.trans hc
  simpa only [Except.ok.injEq, Value.bool.injEq] using h

/-- A value may be written as any bit-vector of the same width and number. -/
theorem Denotes.congr (h : t.Denotes m x) (hw : w = v) (hx : x.toNat = y.toNat) :
    t.Denotes m y := by
  subst hw
  rwa [← BitVec.eq_of_toNat_eq hx]

theorem Denotes.constValue?_eq (h : t.Denotes m x) {value : Nat}
    (hc : t.constValue? = some value) : value = x.toNat := by
  have heval := h.eval_eq
  rw [constValue?_eq_some hc, Term.eval] at heval
  simp only [Except.ok.injEq, Value.word.injEq] at heval
  exact heval.1

theorem decides_bool (value : Bool) : (Term.bool value).Decides m value := by
  rw [Decides, Term.eval]

theorem Decides.boolValue?_eq (h : t.Decides m b) {value : Bool}
    (hc : t.boolValue? = some value) : value = b := by
  rw [boolValue?_eq_some hc] at h
  exact (decides_bool value).unique h

/-! ## The value of a node -/

theorem Denotes.const {value : Nat} (le : w ≤ Word.maxBits) (lt : value < 2 ^ w) :
    (Term.const value w).Denotes m (BitVec.ofNat w value) where
  sort_eq := rfl
  width_le := le
  eval_eq := by rw [Term.eval, BitVec.toNat_ofNat, Nat.mod_eq_of_lt lt]

theorem Denotes.var {name : String} {value : Nat} (le : w ≤ Word.maxBits)
    (h : m name = some value) : (Term.var name w).Denotes m (BitVec.ofNat w value) where
  sort_eq := rfl
  width_le := le
  eval_eq := by rw [Term.eval, h, ← Word.truncate_eq le]

theorem Denotes.unary (op : UnaryOp) (h : arg.Denotes m x) :
    (Term.unary op arg).Denotes m (op.onBits x) where
  sort_eq := by rw [Term.sort, h.sort_eq, TermSort.width]
  width_le := h.width_le
  eval_eq := by
    rw [Term.eval, h.eval_eq, ← UnaryOp.apply_toNat h.width_le]
    rfl

/-- No shift within a width goes past the widest word. -/
theorem evalWords_eq (op : BinaryOp) (le : w ≤ Word.maxBits) (x y : BitVec w) :
    op.evalWords w x.toNat y.toNat = .ok (op.onBits x y).toNat := by
  rw [BinaryOp.evalWords, if_neg (by omega), BinaryOp.apply_toNat le]

theorem Denotes.binary (op : BinaryOp) {z : BitVec w} (hl : left.Denotes m x)
    (hr : right.Denotes m z) : (Term.binary op left right).Denotes m (op.onBits x z) where
  sort_eq := by rw [Term.sort, hl.sort_eq, TermSort.width]
  width_le := hl.width_le
  eval_eq := by
    rw [Term.eval, hl.eval_eq, hr.eval_eq]
    simp only [bind, Except.bind, Value.toWord, evalWords_eq op hl.width_le]

theorem Denotes.compare (op : CompareOp) {z : BitVec w} (hl : left.Denotes m x)
    (hr : right.Denotes m z) : (Term.compare op left right).Decides m (op.onBits x z) := by
  rw [Decides, Term.eval, hl.eval_eq, hr.eval_eq]
  simp only [bind, Except.bind, Value.toWord, CompareOp.holds_toNat hl.width_le]

theorem Decides.not (h : arg.Decides m b) : (Term.not arg).Decides m (!b) := by
  rw [Decides, Term.eval, h]
  rfl

theorem toBool_eq_ok_iff {value : Value} {truth : Bool} :
    value.toBool = .ok truth ↔ value = .bool truth := by
  cases value with
  | bool c => simp [Value.toBool]
  | word n width => simp [Value.toBool]

theorem toWord_eq_ok_iff {value : Value} {word : Nat × Nat} :
    value.toWord = .ok word ↔ value = .word word.1 word.2 := by
  cases value with
  | bool c => simp [Value.toWord]
  | word n width => simp [Value.toWord, Prod.ext_iff]

/-- What is negated has a truth if the negation has one. -/
theorem Decides.of_not (h : (Term.not arg).Decides m b) : arg.Decides m (!b) := by
  rw [Decides, Term.eval, bind_eq_ok_iff] at h
  obtain ⟨value, harg, h⟩ := h
  obtain ⟨c, hc, h⟩ := bind_eq_ok_iff.1 h
  have hcb : (!c) = b := by simpa using h
  rw [Decides, harg, toBool_eq_ok_iff.1 hc, ← hcb, Bool.not_not]

/-! ## The value of a connective -/

/-- A list of terms evaluates to the truths of its terms. -/
theorem evalAll_eq_ok_iff {terms : List Term} {truths : List Bool} :
    evalAll m terms = .ok truths ↔ List.Forall₂ (Decides m) terms truths := by
  induction terms generalizing truths with
  | nil => simp [eq_comm]
  | cons u us ih =>
    rw [evalAll, List.forall₂_cons_left_iff]
    constructor
    · intro h
      obtain ⟨value, hu, h⟩ := bind_eq_ok_iff.1 h
      obtain ⟨c, hc, h⟩ := bind_eq_ok_iff.1 h
      obtain ⟨rest, hus, h⟩ := bind_eq_ok_iff.1 h
      refine ⟨c, rest, ?_, ih.1 hus, ?_⟩
      · rw [Decides, hu, toBool_eq_ok_iff.1 hc]
      · simpa [eq_comm] using h
    · rintro ⟨c, rest, hu, hus, rfl⟩
      rw [hu, ih.2 hus]
      rfl

/-- A node joins the truths of its terms: its value is `neutral` if all of
theirs are, and the other one otherwise. -/
def Connects (neutral : Bool) (node : List Term → Term) : Prop :=
  ∀ (m : Model) (terms : List Term) (b : Bool), (node terms).Decides m b ↔
    ∃ truths, List.Forall₂ (Decides m) terms truths ∧
      (if truths.all (· == neutral) then neutral else !neutral) = b

theorem connects_conj : Connects true .conj := by
  intro m terms b
  rw [Decides, Term.eval, bind_eq_ok_iff]
  refine exists_congr fun truths => and_congr evalAll_eq_ok_iff ?_
  cases hall : truths.all id <;> simp_all

theorem connects_disj : Connects false .disj := by
  intro m terms b
  rw [Decides, Term.eval, bind_eq_ok_iff]
  refine exists_congr fun truths => and_congr evalAll_eq_ok_iff ?_
  cases hany : truths.any id <;> simp_all

theorem Decides.iff_eq {c : Bool} (h : t.Decides m b) : t.Decides m c ↔ b = c :=
  ⟨h.unique, fun hbc => hbc ▸ h⟩

/-- The truths of terms are all `neutral` if every term has that truth. -/
theorem all_truths_iff {terms : List Term} {truths : List Bool} (neutral : Bool)
    (h : List.Forall₂ (Decides m) terms truths) :
    truths.all (· == neutral) = true ↔ ∀ t ∈ terms, t.Decides m neutral := by
  induction h with
  | nil => simp
  | cons hhead _ ih =>
    rw [List.all_cons, Bool.and_eq_true, ih, List.forall_mem_cons, hhead.iff_eq, beq_iff_eq]

/-- A truth that is not `neutral` is that of a term. -/
theorem exists_of_not_all_truths {terms : List Term} {truths : List Bool} {neutral : Bool}
    (h : List.Forall₂ (Decides m) terms truths) (hall : truths.all (· == neutral) = false) :
    ∃ t ∈ terms, t.Decides m (!neutral) := by
  induction h with
  | nil => cases hall
  | @cons u c us cs hhead _ ih =>
    by_cases hc : c = neutral
    · have hrest : cs.all (· == neutral) = false := by simpa [hc] using hall
      obtain ⟨t, ht, hdec⟩ := ih hrest
      exact ⟨t, List.mem_cons_of_mem u ht, hdec⟩
    · exact ⟨u, List.mem_cons_self, Bool.eq_not_of_ne hc ▸ hhead⟩

theorem exists_truths {terms : List Term} (h : ∀ t ∈ terms, ∃ b, t.Decides m b) :
    ∃ truths, List.Forall₂ (Decides m) terms truths := by
  induction terms with
  | nil => exact ⟨[], .nil⟩
  | cons u us ih =>
    obtain ⟨c, hc⟩ := h u List.mem_cons_self
    obtain ⟨cs, hcs⟩ := ih fun t ht => h t (List.mem_cons_of_mem u ht)
    exact ⟨c :: cs, .cons hc hcs⟩

variable {neutral : Bool} {node : List Term → Term} {terms : List Term}

theorem Connects.decides_neutral_iff (h : Connects neutral node) :
    (node terms).Decides m neutral ↔ ∀ t ∈ terms, t.Decides m neutral := by
  rw [h]
  constructor
  · rintro ⟨truths, htruths, heq⟩
    refine (all_truths_iff neutral htruths).1 ?_
    by_contra hall
    rw [if_neg hall] at heq
    exact Bool.not_ne_self neutral heq
  · intro hall
    obtain ⟨truths, htruths⟩ := exists_truths fun t ht => ⟨neutral, hall t ht⟩
    exact ⟨truths, htruths, if_pos ((all_truths_iff neutral htruths).2 hall)⟩

theorem Connects.exists_of_decides (h : Connects neutral node)
    (hdec : (node terms).Decides m (!neutral)) : ∃ t ∈ terms, t.Decides m (!neutral) := by
  obtain ⟨truths, htruths, heq⟩ := (h m terms _).1 hdec
  refine exists_of_not_all_truths htruths (Bool.eq_false_iff.2 fun hall => ?_)
  rw [if_pos hall] at heq
  exact Bool.not_ne_self neutral heq.symm

theorem Connects.exists_decides (h : Connects neutral node)
    (hterms : ∀ t ∈ terms, ∃ b, t.Decides m b) : ∃ b, (node terms).Decides m b := by
  obtain ⟨truths, htruths⟩ := exists_truths hterms
  exact ⟨_, (h m terms _).2 ⟨truths, htruths, rfl⟩⟩

/-! ## The value of an if-then-else, and of nodes that change the width -/

/-- An if-then-else evaluates the arm that it takes, and only that one. -/
theorem eval_ite (h : cond.Decides m b) :
    (Term.ite cond thenArm elseArm).eval m = if b then thenArm.eval m else elseArm.eval m := by
  rw [Term.eval, h]
  rfl

theorem Denotes.extract {hi lo : Nat} (le : lo ≤ hi) (lt : hi < w) (h : arg.Denotes m x) :
    (Term.extract hi lo arg).Denotes m (x.extractLsb' lo (hi - lo + 1)) where
  sort_eq := rfl
  width_le := by
    have hw := h.width_le
    omega
  eval_eq := by
    have hw := h.width_le
    rw [Term.eval, h.eval_eq]
    simp only [bind, Except.bind, Value.toWord]
    rw [if_neg (by omega), Word.truncate_eq (by omega), BitVec.toNat_ofNat,
      BitVec.extractLsb'_toNat]

theorem Denotes.concat (hh : high.Denotes m x) (hl : low.Denotes m y)
    (le : w + v ≤ Word.maxBits) : (Term.concat high low).Denotes m (x ++ y) where
  sort_eq := by rw [Term.sort, hh.sort_eq, hl.sort_eq, TermSort.width, TermSort.width]
  width_le := le
  eval_eq := by
    rw [Term.eval, hh.eval_eq, hl.eval_eq, BitVec.toNat_append]
    rfl

theorem Denotes.zeroExt {count : Nat} (h : arg.Denotes m x) (le : w + count ≤ Word.maxBits) :
    (Term.zeroExt count arg).Denotes m (x.setWidth (w + count)) where
  sort_eq := by rw [Term.sort, h.sort_eq, TermSort.width]
  width_le := le
  eval_eq := by
    rw [Term.eval, h.eval_eq, BitVec.toNat_setWidth_of_le (Nat.le_add_right w count)]
    rfl

theorem Denotes.signExt {count : Nat} (h : arg.Denotes m x) (le : w + count ≤ Word.maxBits) :
    (Term.signExt count arg).Denotes m (x.signExtend (w + count)) where
  sort_eq := by rw [Term.sort, h.sort_eq, TermSort.width]
  width_le := le
  eval_eq := by
    rw [Term.eval, h.eval_eq]
    simp only [bind, Except.bind, Value.toWord]
    rw [Word.toSigned_toNat h.width_le, Word.ofSigned_eq le]
    rfl

end Term

/-! ## The value of what a folding constructor builds -/

namespace Fold

open Term

variable {m : Model} {arg amount left right high low cond thenArm elseArm : Term} {w v : Nat}
  {x z : BitVec w} {y : BitVec v} {b : Bool}

theorem denotes_lit (value : Nat) (le : w ≤ Word.maxBits) :
    (lit value w).Denotes m (BitVec.ofNat w value) where
  sort_eq := rfl
  width_le := le
  eval_eq := by rw [lit, Term.eval, Word.truncate_eq le]

/-- A constant denotes the bit-vector of its number. -/
theorem denotes_lit_toNat (le : w ≤ Word.maxBits) (x : BitVec w) : (lit x.toNat w).Denotes m x := by
  have h := denotes_lit (m := m) x.toNat le
  rwa [BitVec.ofNat_toNat, BitVec.setWidth_eq] at h

theorem denotes_unary (op : UnaryOp) (h : arg.Denotes m x) :
    (unary op arg).Denotes m (op.onBits x) := by
  rw [unary, h.width_eq]
  split
  · rename_i value hc
    rw [h.constValue?_eq hc, UnaryOp.apply_toNat h.width_le]
    exact denotes_lit_toNat h.width_le _
  · exact h.unary op

theorem denotes_binary (op : BinaryOp) (hl : left.Denotes m x) (hr : right.Denotes m z) :
    (binary op left right).Denotes m (op.onBits x z) := by
  rw [binary, hl.width_eq]
  split
  · rename_i l r hcl hcr
    rw [hl.constValue?_eq hcl, hr.constValue?_eq hcr, BinaryOp.apply_toNat hl.width_le]
    exact denotes_lit_toNat hl.width_le _
  · exact hl.binary op hr

theorem denotes_extract {hi lo : Nat} (le : lo ≤ hi) (lt : hi < w) (h : arg.Denotes m x) :
    (extract hi lo arg).Denotes m (x.extractLsb' lo (hi - lo + 1)) := by
  have hw := h.width_le
  rw [extract, h.width_eq]
  split
  · rename_i hall
    refine h.congr (by omega) ?_
    rw [BitVec.extractLsb'_toNat, hall.1, Nat.shiftRight_zero, Nat.sub_zero, hall.2,
      Nat.mod_eq_of_lt x.isLt]
  · split
    · rename_i value hc
      rw [h.constValue?_eq hc]
      exact denotes_lit _ (by omega)
    · exact h.extract le lt

/-- A run of one bit is that bit. -/
theorem denotes_bit (place : Nat) (lt : place < w) (h : arg.Denotes m x) :
    (extract place place arg).Denotes m (BitVec.ofBool (x.getLsbD place)) := by
  have hwidth : place - place + 1 = 1 := by omega
  refine (denotes_extract (Nat.le_refl place) lt h).congr hwidth ?_
  rw [BitVec.extractLsb'_toNat, hwidth, BitVec.toNat_ofBool, BitVec.getLsbD,
    Nat.testBit_eq_decide_div_mod_eq, Nat.shiftRight_eq_div_pow]
  rcases Nat.mod_two_eq_zero_or_one (x.toNat / 2 ^ place) with hbit | hbit <;>
    simp [hbit]

theorem denotes_concat (hh : high.Denotes m x) (hl : low.Denotes m y)
    (le : w + v ≤ Word.maxBits) : (concat high low).Denotes m (x ++ y) := by
  rw [concat, hh.width_eq, hl.width_eq]
  split
  · rename_i h l hch hcl
    rw [hh.constValue?_eq hch, hl.constValue?_eq hcl, ← BitVec.toNat_append]
    exact denotes_lit_toNat le _
  · exact hh.concat hl le

theorem denotes_zeroExt {count : Nat} (h : arg.Denotes m x) (le : w + count ≤ Word.maxBits) :
    (zeroExt count arg).Denotes m (x.setWidth (w + count)) := by
  rw [zeroExt, h.width_eq]
  split
  · rename_i hnone
    subst hnone
    rwa [Nat.add_zero, BitVec.setWidth_eq]
  · split
    · rename_i value hc
      rw [h.constValue?_eq hc, ← BitVec.ofNat_toNat]
      exact denotes_lit _ le
    · exact h.zeroExt le

/-- A word that is read back from the widest word has lost nothing. -/
theorem ofNat_ofSigned_maxBits (le : w ≤ Word.maxBits) (value : Int) :
    BitVec.ofNat w (Word.ofSigned Word.maxBits value) = BitVec.ofInt w value := by
  apply BitVec.eq_of_toNat_eq
  have hdvd : ((2 ^ w : Nat) : Int) ∣ ((2 ^ Word.maxBits : Nat) : Int) :=
    Int.natCast_dvd_natCast.2 (Nat.pow_dvd_pow 2 le)
  have hpos : (0 : Int) < ((2 ^ Word.maxBits : Nat) : Int) := by decide
  have hnonneg := Int.emod_nonneg value (Int.ne_of_gt hpos)
  rw [BitVec.toNat_ofNat, Word.ofSigned_eq (Nat.le_refl _), BitVec.toNat_ofInt, BitVec.toNat_ofInt,
    ← Int.toNat_natCast (2 ^ w), ← Int.toNat_emod hnonneg (Int.natCast_nonneg _),
    Int.emod_emod_of_dvd _ hdvd, Int.toNat_natCast]

theorem denotes_signExt {count : Nat} (h : arg.Denotes m x) (le : w + count ≤ Word.maxBits) :
    (signExt count arg).Denotes m (x.signExtend (w + count)) := by
  rw [signExt, h.width_eq]
  split
  · rename_i hnone
    subst hnone
    rwa [Nat.add_zero, BitVec.signExtend_eq]
  · split
    · rename_i value hc
      rw [h.constValue?_eq hc, Word.toSigned_toNat h.width_le, BitVec.signExtend,
        ← ofNat_ofSigned_maxBits le]
      exact denotes_lit _ le
    · exact h.signExt le

theorem denotes_resize (h : arg.Denotes m x) (pos : 0 < v) (le : v ≤ Word.maxBits) :
    (resize v arg).Denotes m (x.setWidth v) := by
  rw [resize, h.width_eq]
  split
  · rename_i hsame
    subst hsame
    rwa [BitVec.setWidth_eq]
  · split
    · rename_i hlt
      have hv : w + (v - w) = v := by omega
      have hext : (zeroExt (v - w) arg).Denotes m (x.setWidth (w + (v - w))) :=
        denotes_zeroExt h (by omega)
      exact hext.congr hv (by rw [hv])
    · have hv : v - 1 - 0 + 1 = v := by omega
      have hcut : (extract (v - 1) 0 arg).Denotes m (x.extractLsb' 0 (v - 1 - 0 + 1)) :=
        denotes_extract (Nat.zero_le _) (by omega) h
      refine hcut.congr hv ?_
      rw [BitVec.extractLsb'_toNat, hv, Nat.shiftRight_zero, BitVec.toNat_setWidth]

theorem denotes_shift (op : BinaryOp) (h : arg.Denotes m x) (ha : amount.Denotes m y)
    (pos : 0 < w) : (shift op arg amount).Denotes m (op.onBits x (y.setWidth w)) := by
  rw [shift, h.width_eq]
  exact denotes_binary op h (denotes_resize ha pos h.width_le)

theorem decides_compare (op : CompareOp) (hl : left.Denotes m x) (hr : right.Denotes m z) :
    (compare op left right).Decides m (op.onBits x z) := by
  rw [compare, hl.width_eq]
  split
  · rename_i l r hcl hcr
    rw [hl.constValue?_eq hcl, hr.constValue?_eq hcr, CompareOp.holds_toNat hl.width_le]
    exact decides_bool _
  · split
    · rename_i hsame
      obtain ⟨rfl, rfl⟩ := hsame
      rw [hl.unique hr, CompareOp.onBits, beq_self_eq_true]
      exact decides_bool true
    · exact hl.compare op hr

/-- A term is compared with a constant of its width. -/
theorem decides_eq_lit {c : Nat} (h : arg.Denotes m x) (hc : c < 2 ^ w) :
    (compare .eq arg (lit c arg.width)).Decides m (decide (x.toNat = c)) := by
  have heq : CompareOp.onBits .eq x (BitVec.ofNat w c) = decide (x.toNat = c) := by
    rw [CompareOp.onBits, Bool.eq_iff_iff, beq_iff_eq, decide_eq_true_iff, ← BitVec.toNat_inj,
      BitVec.toNat_ofNat, Nat.mod_eq_of_lt hc]
  rw [h.width_eq, ← heq]
  exact decides_compare .eq h (denotes_lit c h.width_le)

theorem decides_not (h : arg.Decides m b) : (not arg).Decides m (!b) := by
  rw [not.eq_def]
  split
  · rename_i value
    rw [← (decides_bool value).unique h]
    exact decides_bool _
  · exact h.of_not
  · exact h.not

/-- What is negated has a truth if the negation has one. -/
theorem decides_of_not (h : (not arg).Decides m b) : arg.Decides m (!b) := by
  rw [not.eq_def] at h
  split at h
  · rename_i value
    rw [← (decides_bool _).unique h, Bool.not_not]
    exact decides_bool value
  · exact h.not
  · exact h.of_not

theorem decides_notEqual (hl : left.Denotes m x) (hr : right.Denotes m z) :
    (notEqual left right).Decides m (x != z) :=
  decides_not (decides_compare .eq hl hr)

/-! ### Connectives -/

variable {neutral : Bool} {node : List Term → Term} {terms : List Term}

/-- The terms that a connective keeps say as much as all of them. -/
theorem forall_remaining_iff {kept : List Term} (h : remaining neutral terms = some kept) :
    (∀ t ∈ terms, t.Decides m neutral) ↔ ∀ t ∈ kept, t.Decides m neutral := by
  constructor
  · intro hall t ht
    exact hall t (mem_of_remaining h t ht)
  · intro hall t ht
    rcases mem_or_neutral_of_remaining h t ht with hkept | rfl
    · exact hall t hkept
    · exact decides_bool neutral

theorem decides_connect_neutral_iff (hnode : Connects neutral node) :
    (connect neutral node terms).Decides m neutral ↔ ∀ t ∈ terms, t.Decides m neutral := by
  unfold connect
  split
  · rename_i hnone
    constructor
    · intro h
      exact absurd ((decides_bool _).unique h) (Bool.not_ne_self neutral)
    · intro hall
      have h := hall _ (remaining_eq_none_iff.1 hnone)
      exact absurd ((decides_bool _).unique h) (Bool.not_ne_self neutral)
  · rename_i hkept
    rw [forall_remaining_iff hkept]
    exact iff_of_true (decides_bool neutral) fun t ht => absurd ht List.not_mem_nil
  · rename_i t hkept
    rw [forall_remaining_iff hkept, List.forall_mem_singleton]
  · rename_i kept _ _ hkept
    rw [forall_remaining_iff hkept, hnode.decides_neutral_iff]

theorem exists_of_decides_connect (hnode : Connects neutral node)
    (h : (connect neutral node terms).Decides m (!neutral)) :
    ∃ t ∈ terms, t.Decides m (!neutral) := by
  refine connect_induction (P := fun u => u.Decides m (!neutral) → _) (fun h => ?_)
    (fun t ht h => ⟨t, ht, h⟩) (fun kept hkept h => ?_) h
  · exact absurd ((decides_bool neutral).unique h).symm (Bool.not_ne_self neutral)
  · obtain ⟨t, ht, hdec⟩ := hnode.exists_of_decides h
    exact ⟨t, hkept t ht, hdec⟩

theorem exists_decides_connect (hnode : Connects neutral node)
    (h : ∀ t ∈ terms, ∃ b, t.Decides m b) : ∃ b, (connect neutral node terms).Decides m b :=
  connect_induction (P := fun t => ∃ b, t.Decides m b) ⟨neutral, decides_bool neutral⟩ h
    fun _ hkept => hnode.exists_decides fun t ht => h t (hkept t ht)

/-- A connective whose terms have truths has the truth `neutral` if all of
theirs are. -/
theorem decides_connect (hnode : Connects neutral node) (h : ∀ t ∈ terms, ∃ c, t.Decides m c)
    (hb : b = neutral ↔ ∀ t ∈ terms, t.Decides m neutral) :
    (connect neutral node terms).Decides m b := by
  obtain ⟨c, hc⟩ := exists_decides_connect hnode h
  have hsame : c = neutral ↔ b = neutral := by
    rw [hb, ← decides_connect_neutral_iff hnode, hc.iff_eq]
  have hcb : c = b := by
    cases b <;> cases c <;> cases neutral <;> simp_all
  exact hcb ▸ hc

/-! ### If-then-else -/

/-- An if-then-else has the value of the arm that it takes. -/
theorem eval_ite (h : cond.Decides m b) :
    (ite cond thenArm elseArm).eval m = if b then thenArm.eval m else elseArm.eval m := by
  unfold ite
  split
  · rename_i hconst
    rw [← h.boolValue?_eq hconst, if_pos rfl]
  · rename_i hconst
    rw [← h.boolValue?_eq hconst, if_neg Bool.false_ne_true]
  · split
    · rename_i hsame
      rw [hsame, ite_self]
    · exact Term.eval_ite h

theorem sort_ite (h : thenArm.sort = elseArm.sort) :
    (ite cond thenArm elseArm).sort = thenArm.sort := by
  unfold ite
  split
  · rfl
  · exact h.symm
  · split
    · rfl
    · rw [Term.sort]

theorem denotes_ite (h : cond.Decides m b) (hsort : thenArm.sort = elseArm.sort)
    (harm : (if b then thenArm else elseArm).Denotes m x) :
    (ite cond thenArm elseArm).Denotes m x where
  sort_eq := by
    rw [sort_ite hsort, ← harm.sort_eq]
    cases b with
    | true => rfl
    | false => exact hsort
  width_le := harm.width_le
  eval_eq := by
    rw [eval_ite h, ← harm.eval_eq]
    cases b <;> rfl

theorem denotes_boolToBits (h : cond.Decides m b) (le : w ≤ Word.maxBits) :
    (boolToBits w cond).Denotes m (BitVec.ofNat w b.toNat) := by
  refine denotes_ite h rfl ?_
  cases b with
  | true => exact denotes_lit 1 le
  | false => exact denotes_lit 0 le

end Fold

/-! ## The number of a term, whatever its sort -/

/-- A term evaluates to a number. -/
def Term.HasNumber (m : Model) (t : Term) (k : Nat) : Prop := ∃ w, t.eval m = .ok (.word k w)

namespace Term

variable {m : Model} {t left right : Term} {w : Nat} {x : BitVec w}

theorem Denotes.hasNumber (h : t.Denotes m x) : t.HasNumber m x.toNat := ⟨w, h.eval_eq⟩

theorem HasNumber.unique {j k : Nat} (hj : t.HasNumber m j) (hk : t.HasNumber m k) : j = k := by
  obtain ⟨v, hj⟩ := hj
  obtain ⟨u, hk⟩ := hk
  have h := hj.symm.trans hk
  simp only [Except.ok.injEq, Value.word.injEq] at h
  exact h.1

theorem hasNumber_const {value : Nat} (h : t.constValue? = some value) : t.HasNumber m value := by
  rw [constValue?_eq_some h]
  exact ⟨t.width, by rw [Term.eval]⟩

/-- The operands of a comparison that has a truth have numbers. -/
theorem hasNumber_of_decides {op : CompareOp} {b : Bool}
    (h : (Term.compare op left right).Decides m b) :
    ∃ j k v, left.HasNumber m j ∧ right.HasNumber m k ∧ op.holds v j k = b := by
  rw [Decides, Term.eval] at h
  obtain ⟨l, hl, h⟩ := bind_eq_ok_iff.1 h
  obtain ⟨⟨j, v⟩, hj, h⟩ := bind_eq_ok_iff.1 h
  obtain ⟨r, hr, h⟩ := bind_eq_ok_iff.1 h
  obtain ⟨⟨k, u⟩, hk, h⟩ := bind_eq_ok_iff.1 h
  refine ⟨j, k, v, ⟨v, ?_⟩, ⟨u, ?_⟩, by simpa using h⟩
  · rw [hl, toWord_eq_ok_iff.1 hj]
  · rw [hr, toWord_eq_ok_iff.1 hk]

end Term

namespace Fold

variable {m : Model} {left right t : Term}

/-- A comparison with a constant that has a truth compares the number of the
other operand. -/
theorem hasNumber_of_decides {op : CompareOp} {k : Nat} {b : Bool}
    (hk : right.constValue? = some k) (h : (compare op left right).Decides m b) :
    ∃ j v, left.HasNumber m j ∧ op.holds v j k = b := by
  rw [compare, hk] at h
  split at h
  · rename_i l r hl hr
    obtain rfl := Option.some.inj hr
    exact ⟨l, _, Term.hasNumber_const hl, (Term.decides_bool _).unique h⟩
  · rename_i hconst
    split at h
    · rename_i hsame
      exact absurd rfl (hconst k k (hsame.2 ▸ hk))
    · obtain ⟨j, i, v, hj, hi, hholds⟩ := Term.hasNumber_of_decides h
      obtain rfl := hi.unique (Term.hasNumber_const hk)
      exact ⟨j, v, hj, hholds⟩

end Fold

end SymLift
