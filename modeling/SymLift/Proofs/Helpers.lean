import SymLift.Proofs.FlagBuild
import SymLift.Proofs.Flags
import SymLift.Proofs.Operators

/-!
# Flag helpers on numbers

`Helper.compute` is what a flag helper does to bit-vectors, without any
term.  It decodes the number of the operation first, and has no answer for a
number that is not modeled.

* `Helper.Modeled` says of the arguments of a call that the number of the
  operation is modeled, and the condition code is known or in range.
* `denotes_selectThunkOp`: a choice over all operations takes the right one.
* `exists_denotes_call`: a call has a value, and that of `compute` if it is
  modeled.
* `exists_decides_call`: every constraint of a call has a truth, and is true
  if the call is modeled.
* `modeled_of_call`: a call whose constraints are true is modeled.  This
  direction reads the truth of the constraints only, so it asks nothing of
  the sorts or the widths.
-/

namespace SymLift

/-! ## Selecting an operation -/

namespace Guest

open Fold

variable {g : Guest} {m : Model} {op n v : Nat} {ccOp : Term}

/-- The modeled numbers are those below `modeledOps`. -/
theorem isSome_decodeThunk?_iff : (g.decodeThunk? op).isSome ↔ op < g.modeledOps := by
  have hpos : 0 < g.dataWidths.length := by cases g <;> decide
  cases op with
  | zero =>
    unfold modeledOps
    exact iff_of_true rfl (by omega)
  | succ index =>
    have hwidth : index % g.dataWidths.length < g.dataWidths.length := Nat.mod_lt _ hpos
    rw [decodeThunk?, List.getElem?_eq_getElem hwidth, modeledOps, Nat.add_comm 1,
      Nat.add_lt_add_iff_right, ← Nat.div_lt_iff_lt_mul hpos]
    by_cases hgroup : index / g.dataWidths.length < ThunkOp.groups.length
    · rw [List.getElem?_eq_getElem hgroup]
      exact iff_of_true rfl hgroup
    · rw [List.getElem?_eq_none (Nat.not_lt.1 hgroup)]
      exact iff_of_false Bool.false_ne_true hgroup

/-- What `f` gives for the operation of a number, and for `copy` if the
number is not modeled. -/
def valueAt {α : Type} (g : Guest) (f : ThunkOp → Nat → α) (op : Nat) : α :=
  match g.decodeThunk? op with
  | some (thunkOp, width) => f thunkOp width
  | none => f .copy g.wordBits

theorem valueAt_eq {α : Type} (f : ThunkOp → Nat → α) (op : Nat) :
    g.valueAt f op = f (g.thunkAt op).1 (g.thunkAt op).2 := by
  rw [valueAt, thunkAt]
  cases g.decodeThunk? op <;> rfl

theorem valueAt_of_not_modeled {α : Type} (f : ThunkOp → Nat → α)
    (h : op ∉ List.range' 1 (g.modeledOps - 1)) : g.valueAt f op = f .copy g.wordBits := by
  rw [List.mem_range'_1] at h
  cases op with
  | zero => rfl
  | succ index =>
    have hnone : g.decodeThunk? (index + 1) = none := by
      rw [← Option.not_isSome_iff_eq_none, isSome_decodeThunk?_iff]
      omega
    rw [valueAt, hnone]

variable {f : ThunkOp → Nat → Term} {F : ThunkOp → Nat → BitVec v}

theorem denotes_atThunkOp (hf : ∀ op n, 8 ≤ n → n ≤ g.wordBits → (f op n).Denotes m (F op n))
    (op : Nat) : (g.atThunkOp f op).Denotes m (g.valueAt F op) := by
  obtain ⟨hn, le⟩ := g.thunkAt_bounds op
  rw [atThunkOp_eq, valueAt_eq]
  exact hf _ _ hn le

theorem lt_two_pow_of_lt_modeledOps (h : op < g.modeledOps) : op < 2 ^ g.wordBits := by
  refine h.trans ?_
  cases g <;> decide

/-- A choice over all operations takes the one of the number that a term
has. -/
theorem denotes_selectThunkOp {k : BitVec g.wordBits}
    (hf : ∀ op n, 8 ≤ n → n ≤ g.wordBits → (f op n).Denotes m (F op n))
    (hop : ccOp.Denotes m k) : (g.selectThunkOp ccOp f).Denotes m (g.valueAt F k.toNat) := by
  have hrange : ∀ op ∈ List.range' 1 (g.modeledOps - 1), op < 2 ^ g.wordBits := by
    intro op hmem
    rw [List.mem_range'_1] at hmem
    exact lt_two_pow_of_lt_modeledOps (by omega)
  have hlast : (f .copy g.wordBits).Denotes m (F .copy g.wordBits) := denotes_atThunkOp hf 0
  have hselect := denotes_select hop hrange (fun op _ => denotes_atThunkOp hf op) hlast
  refine hselect.congr rfl ?_
  split
  · rfl
  · rename_i hmem
    rw [valueAt_of_not_modeled F hmem]

/-- The tests that `isModeled` joins are those for the modeled numbers. -/
theorem mem_tests_iff {t : Term} :
    t ∈ isThunkOp ccOp 0 :: (List.range' 1 (g.modeledOps - 1)).reverse.map (isThunkOp ccOp) ↔
      ∃ op < g.modeledOps, t = isThunkOp ccOp op := by
  have hpos : 0 < g.modeledOps := by rw [modeledOps]; omega
  simp only [List.mem_cons, List.mem_map, List.mem_reverse, List.mem_range'_1]
  constructor
  · rintro (rfl | ⟨op, hop, rfl⟩)
    · exact ⟨0, hpos, rfl⟩
    · exact ⟨op, by omega, rfl⟩
  · rintro ⟨op, hop, rfl⟩
    rcases Nat.eq_zero_or_pos op with rfl | hop'
    · exact Or.inl rfl
    · exact Or.inr ⟨op, by omega, rfl⟩

theorem decides_isThunkOp {k : BitVec g.wordBits} (hop : ccOp.Denotes m k)
    (h : op < g.modeledOps) : (isThunkOp ccOp op).Decides m (decide (k.toNat = op)) :=
  decides_eq_lit hop (lt_two_pow_of_lt_modeledOps h)

/-- Whether a term is a modeled operation. -/
theorem decides_isModeled {k : BitVec g.wordBits} (hop : ccOp.Denotes m k) :
    (g.isModeled ccOp).Decides m (g.decodeThunk? k.toNat).isSome := by
  refine decides_connect Term.connects_disj (fun t ht => ?_) ⟨fun hnone t ht => ?_, fun hall => ?_⟩
  · obtain ⟨op, hlt, rfl⟩ := mem_tests_iff.1 ht
    exact ⟨_, decides_isThunkOp hop hlt⟩
  · obtain ⟨op, hlt, rfl⟩ := mem_tests_iff.1 ht
    have hne : k.toNat ≠ op := by
      rintro rfl
      rw [isSome_decodeThunk?_iff.2 hlt] at hnone
      cases hnone
    have htest := decides_isThunkOp hop hlt
    rwa [decide_eq_false hne] at htest
  · by_contra hsome
    have hlt := isSome_decodeThunk?_iff.1 (Bool.eq_true_of_not_eq_false hsome)
    have hfalse := hall _ (mem_tests_iff.2 ⟨k.toNat, hlt, rfl⟩)
    have htest := decides_isThunkOp hop hlt
    rw [decide_eq_true rfl] at htest
    exact Bool.noConfusion (htest.unique hfalse)

/-- A term that is a modeled operation has the number of one. -/
theorem hasNumber_of_isModeled (hw : ccOp.width = g.wordBits)
    (h : (g.isModeled ccOp).Decides m true) :
    ∃ op, ccOp.HasNumber m op ∧ (g.decodeThunk? op).isSome := by
  obtain ⟨t, ht, htrue⟩ := exists_of_decides_connect Term.connects_disj h
  obtain ⟨op, hlt, rfl⟩ := mem_tests_iff.1 ht
  obtain ⟨j, v, hj, hholds⟩ := hasNumber_of_decides rfl htrue
  have hop : j = op := by
    rw [hw, Word.truncate_eq g.wordBits_le, BitVec.toNat_ofNat,
      Nat.mod_eq_of_lt (lt_two_pow_of_lt_modeledOps hlt)] at hholds
    exact beq_iff_eq.1 hholds
  exact ⟨op, hop ▸ hj, isSome_decodeThunk?_iff.2 hlt⟩

/-- The flags that a thunk stands for, if its operation is modeled. -/
def thunkFlags? (g : Guest) (ccOp dep1 dep2 ndep : BitVec g.wordBits) : Option Flags :=
  (g.decodeThunk? ccOp.toNat).map fun (op, width) => Flags.ofThunk op width dep1 dep2 ndep

/-- A term is the number of a modeled operation. -/
def Models (g : Guest) (m : Model) (ccOp : Term) : Prop :=
  ∃ op, ccOp.HasNumber m op ∧ (g.decodeThunk? op).isSome

theorem Models.isSome {k : BitVec g.wordBits} (h : g.Models m ccOp) (hop : ccOp.Denotes m k) :
    (g.decodeThunk? k.toNat).isSome := by
  obtain ⟨op, hnumber, hsome⟩ := h
  rwa [hop.hasNumber.unique hnumber]

theorem thunkFlags?_eq {k : BitVec g.wordBits} (h : (g.decodeThunk? k.toNat).isSome)
    (dep1 dep2 ndep : BitVec g.wordBits) : g.thunkFlags? k dep1 dep2 ndep =
      some (g.valueAt (fun op width => Flags.ofThunk op width dep1 dep2 ndep) k.toNat) := by
  obtain ⟨⟨op, width⟩, hdecode⟩ := Option.isSome_iff_exists.1 h
  rw [thunkFlags?, valueAt, hdecode]
  rfl

theorem valueAt_comp {α β : Type} (φ : α → β) (f : ThunkOp → Nat → α) (op : Nat) :
    g.valueAt (fun thunkOp width => φ (f thunkOp width)) op = φ (g.valueAt f op) := by
  rw [valueAt, valueAt]
  split <;> rfl

end Guest

/-! ## What a helper computes -/

namespace Helper

open Fold Guest

/-- What a helper computes from words.  A condition counts by the low four
bits of its code. -/
def computeWords (h : Helper) (args : List (BitVec h.guest.wordBits)) :
    Option (BitVec h.guest.wordBits) :=
  match h.query, args with
  | .condition, [code, ccOp, dep1, dep2, ndep] =>
    (h.guest.thunkFlags? ccOp dep1 dep2 ndep).map fun f =>
      BitVec.ofNat _ (f.condition (code.toNat % 16)).toNat
  | .flags, [ccOp, dep1, dep2, ndep] =>
    (h.guest.thunkFlags? ccOp dep1 dep2 ndep).map fun f => f.pack _
  | .carry, [ccOp, dep1, dep2, ndep] =>
    (h.guest.thunkFlags? ccOp dep1 dep2 ndep).map fun f => BitVec.ofNat _ f.carry.toNat
  | _, _ => none

/-- What a helper computes.  Its arguments are cut or extended to one word
first. -/
def compute (h : Helper) (args : List Bits) : Option (BitVec h.guest.wordBits) :=
  h.computeWords (args.map fun c => c.value.setWidth h.guest.wordBits)

/-- A condition code is a constant, or evaluates below sixteen. -/
def KnownCode (m : Model) (code : Term) : Prop :=
  code.isConstant ∨ ∃ k < 16, code.HasNumber m k

/-- The words that a helper is applied to are modeled. -/
def ModeledWords (h : Helper) (m : Model) (args : List Term) : Prop :=
  match h.query, args with
  | .condition, [code, ccOp, _, _, _] => h.guest.Models m ccOp ∧ KnownCode m code
  | .flags, [ccOp, _, _, _] | .carry, [ccOp, _, _, _] => h.guest.Models m ccOp
  | _, _ => False

/-- A call is modeled: the number of its operation is, and its condition
code is known, both cut or extended to one word. -/
def Modeled (h : Helper) (m : Model) (args : List Term) : Prop :=
  h.ModeledWords m (args.map (resize h.guest.wordBits))

variable {h : Helper} {m : Model} {ccOp code value : Term} {needs args : List Term} {v : Nat}
  {f : ThunkOp → Nat → Term} {F : ThunkOp → Nat → BitVec v} {k : BitVec h.guest.wordBits}

/-! ### The operation -/

theorem denotes_overThunkOp
    (hf : ∀ op n, 8 ≤ n → n ≤ h.guest.wordBits → (f op n).Denotes m (F op n))
    (hop : ccOp.Denotes m k) (hcall : h.overThunkOp ccOp f = .ok (value, needs)) :
    value.Denotes m (h.guest.valueAt F k.toNat) := by
  rw [overThunkOp, hop.addressValue?_eq (wordBits_bounds _).2] at hcall
  by_cases hconst : ccOp.isConstant = true
  · rw [if_pos hconst] at hcall
    have hat := denotes_atThunkOp hf k.toNat
    unfold atThunkOp at hat
    dsimp only at hcall
    split at hcall
    · rename_i thunkOp width hdecode
      rw [hdecode] at hat
      cases hcall
      exact hat
    · cases hcall
  · rw [if_neg hconst] at hcall
    cases hcall
    exact denotes_selectThunkOp hf hop

/-- The constraints on an operation say that it is modeled. -/
theorem decides_overThunkOp (hop : ccOp.Denotes m k)
    (hcall : h.overThunkOp ccOp f = .ok (value, needs)) :
    ∀ need ∈ needs, need.Decides m (h.guest.decodeThunk? k.toNat).isSome := by
  unfold overThunkOp at hcall
  split at hcall
  · split at hcall
    · cases hcall
      exact fun need hneed => absurd hneed List.not_mem_nil
    · cases hcall
  · cases hcall
    rw [List.forall_mem_singleton]
    exact decides_isModeled hop

theorem models_of_overThunkOp (hw : ccOp.width = h.guest.wordBits)
    (hcall : h.overThunkOp ccOp f = .ok (value, needs))
    (hneeds : ∀ need ∈ needs, need.Decides m true) : h.guest.Models m ccOp := by
  unfold overThunkOp at hcall
  split at hcall
  · rename_i op hconst
    split at hcall
    · rename_i hdecode
      have hvalue := (Term.addressValue?_eq_some_iff.1 hconst).1
      exact ⟨op, Term.hasNumber_const hvalue, Option.isSome_iff_exists.2 ⟨_, hdecode⟩⟩
    · cases hcall
  · cases hcall
    exact hasNumber_of_isModeled hw (hneeds _ List.mem_cons_self)

/-! ### The condition code -/

theorem sixteen_lt (g : Guest) : 16 < 2 ^ g.wordBits := by
  cases g <;> decide

theorem decides_codeConstraints (hcode : code.Denotes m k) :
    ∀ need ∈ codeConstraints code, need.Decides m (decide (k.toNat < 16)) := by
  unfold codeConstraints
  split
  · exact fun need hneed => absurd hneed List.not_mem_nil
  · rw [List.forall_mem_singleton, hcode.width_eq]
    have htest := decides_compare .ult hcode (denotes_lit 16 hcode.width_le)
    rwa [CompareOp.onBits, BitVec.ult, BitVec.toNat_ofNat, Nat.mod_eq_of_lt (sixteen_lt _)] at htest

theorem knownCode_of_codeConstraints (hw : code.width = h.guest.wordBits)
    (hneeds : ∀ need ∈ codeConstraints code, need.Decides m true) : KnownCode m code := by
  unfold codeConstraints at hneeds
  split at hneeds
  · rename_i hconst
    exact Or.inl hconst
  · obtain ⟨j, v, hj, hholds⟩ := hasNumber_of_decides rfl (hneeds _ List.mem_cons_self)
    rw [hw, Word.truncate_eq h.guest.wordBits_le, BitVec.toNat_ofNat,
      Nat.mod_eq_of_lt (sixteen_lt _)] at hholds
    exact Or.inr ⟨j, of_decide_eq_true hholds, hj⟩

theorem KnownCode.lt (hknown : KnownCode m code) (hconst : ¬code.isConstant = true)
    (hcode : code.Denotes m k) : k.toNat < 16 := by
  rcases hknown with hconst' | ⟨j, hj, hnumber⟩
  · exact absurd hconst' hconst
  · rwa [hcode.hasNumber.unique hnumber]

/-- A code that is known counts by its low four bits. -/
theorem KnownCode.codeOf_eq (hknown : KnownCode m code) (hcode : code.Denotes m k) :
    FlagBits.codeOf code k = k.toNat % 16 := by
  unfold FlagBits.codeOf
  split
  · rfl
  · rename_i hconst
    have hlt := hknown.lt hconst hcode
    omega

/-! ### Calls -/

/-- A call that succeeds has the arguments that its helper takes. -/
theorem callWords_cases (hcall : h.callWords args = .ok (value, needs)) :
    (∃ code ccOp dep1 dep2 ndep cond opNeeds, h.query = .condition ∧
      args = [code, ccOp, dep1, dep2, ndep] ∧
      h.overThunkOp ccOp
          (fun op width => (FlagBits.ofThunk op width dep1 dep2 ndep).condition code) =
        .ok (cond, opNeeds) ∧
      value = zeroExt (h.guest.wordBits - 1) cond ∧ needs = opNeeds ++ codeConstraints code) ∨
    (∃ ccOp dep1 dep2 ndep, h.query = .flags ∧ args = [ccOp, dep1, dep2, ndep] ∧
      h.overThunkOp ccOp (fun op width =>
        (FlagBits.ofThunk op width dep1 dep2 ndep).pack h.guest.wordBits) = .ok (value, needs)) ∨
    (∃ ccOp dep1 dep2 ndep, h.query = .carry ∧ args = [ccOp, dep1, dep2, ndep] ∧
      h.overThunkOp ccOp (fun op width =>
        zeroExt (h.guest.wordBits - 1) (FlagBits.ofThunk op width dep1 dep2 ndep).carry) =
          .ok (value, needs)) := by
  unfold callWords at hcall
  split at hcall
  · rename_i code ccOp dep1 dep2 ndep hquery
    obtain ⟨⟨cond, opNeeds⟩, hop, hrest⟩ := bind_eq_ok_iff.1 hcall
    cases hrest
    exact Or.inl ⟨code, ccOp, dep1, dep2, ndep, cond, opNeeds, hquery, rfl, hop, rfl, rfl⟩
  · rename_i ccOp dep1 dep2 ndep hquery
    exact Or.inr (Or.inl ⟨ccOp, dep1, dep2, ndep, hquery, rfl, hcall⟩)
  · rename_i ccOp dep1 dep2 ndep hquery
    exact Or.inr (Or.inr ⟨ccOp, dep1, dep2, ndep, hquery, rfl, hcall⟩)
  · cases hcall

theorem forall₂_four {α β : Type} {R : α → β → Prop} {a b c d : α} {ys : List β}
    (h : List.Forall₂ R [a, b, c, d] ys) :
    ∃ a' b' c' d', ys = [a', b', c', d'] ∧ R a a' ∧ R b b' ∧ R c c' ∧ R d d' :=
  match ys, h with
  | [_, _, _, _], .cons ha (.cons hb (.cons hc (.cons hd .nil))) =>
    ⟨_, _, _, _, rfl, ha, hb, hc, hd⟩

/-- The flags that a thunk of terms stands for, one operation and data width
at a time. -/
theorem denotes_thunkFlags {dep1 dep2 ndep : Term} {d1 d2 nd : BitVec h.guest.wordBits}
    (h1 : dep1.Denotes m d1) (h2 : dep2.Denotes m d2) (hnd : ndep.Denotes m nd) (op : ThunkOp)
    (n : Nat) (hn : 8 ≤ n) (le : n ≤ h.guest.wordBits) :
    (FlagBits.ofThunk op n dep1 dep2 ndep).Denotes m (Flags.ofThunk op n d1 d2 nd) :=
  FlagBits.denotes_ofThunk op hn le (wordBits_bounds _).1 h1 h2 hnd

/-- A word that is one or zero. -/
theorem denotes_truth {t : Term} {b : Bool} (ht : t.Tells m b) :
    (zeroExt (h.guest.wordBits - 1) t).Denotes m (BitVec.ofNat h.guest.wordBits b.toNat) :=
  (FlagBits.denotes_oldCarry h.guest.wordBits_pos h.guest.wordBits_le ht).1

/-- A helper on words has a value, and that of `computeWords` if the words
are modeled. -/
theorem exists_denotes_callWords {words : List (BitVec h.guest.wordBits)}
    (hargs : List.Forall₂ (fun t x => t.Denotes m x) args words)
    (hcall : h.callWords args = .ok (value, needs)) :
    ∃ x : BitVec h.guest.wordBits, value.Denotes m x ∧
      (h.ModeledWords m args → h.computeWords words = some x) := by
  obtain ⟨hlow, hhigh⟩ := wordBits_bounds h.guest
  rcases callWords_cases hcall with
    ⟨code, ccOp, dep1, dep2, ndep, cond, opNeeds, hquery, rfl, hop, rfl, -⟩ |
    ⟨ccOp, dep1, dep2, ndep, hquery, rfl, hop⟩ | ⟨ccOp, dep1, dep2, ndep, hquery, rfl, hop⟩
  · obtain ⟨c, rest, hcode, hrest, rfl⟩ := List.forall₂_cons_left_iff.1 hargs
    obtain ⟨k, d1, d2, nd, rfl, hk, h1, h2, hnd⟩ := forall₂_four hrest
    have hcond := denotes_overThunkOp (fun op n hn le => FlagBits.tells_condition
      (denotes_thunkFlags h1 h2 hnd op n hn le) hcode (by omega) hhigh) hk hop
    rw [valueAt_comp fun f : Flags => BitVec.ofBool (f.condition (FlagBits.codeOf code c))] at hcond
    refine ⟨_, denotes_truth hcond, fun hmodeled => ?_⟩
    simp only [ModeledWords, hquery] at hmodeled
    simp only [computeWords, hquery]
    rw [thunkFlags?_eq (hmodeled.1.isSome hk), hmodeled.2.codeOf_eq hcode]
    rfl
  · obtain ⟨k, d1, d2, nd, rfl, hk, h1, h2, hnd⟩ := forall₂_four hargs
    have hvalue := denotes_overThunkOp (fun op n hn le => FlagBits.denotes_pack hlow
      h.guest.wordBits_le (denotes_thunkFlags h1 h2 hnd op n hn le)) hk hop
    rw [valueAt_comp fun f : Flags => f.pack h.guest.wordBits] at hvalue
    refine ⟨_, hvalue, fun hmodeled => ?_⟩
    simp only [ModeledWords, hquery] at hmodeled
    simp only [computeWords, hquery]
    rw [thunkFlags?_eq (hmodeled.isSome hk)]
    rfl
  · obtain ⟨k, d1, d2, nd, rfl, hk, h1, h2, hnd⟩ := forall₂_four hargs
    have hvalue := denotes_overThunkOp (fun op n hn le => denotes_truth
      (denotes_thunkFlags h1 h2 hnd op n hn le).carry) hk hop
    rw [valueAt_comp fun f : Flags => BitVec.ofNat h.guest.wordBits f.carry.toNat] at hvalue
    refine ⟨_, hvalue, fun hmodeled => ?_⟩
    simp only [ModeledWords, hquery] at hmodeled
    simp only [computeWords, hquery]
    rw [thunkFlags?_eq (hmodeled.isSome hk)]
    rfl

/-- The constraints of a helper on words have truths, and are true if the
words are modeled. -/
theorem exists_decides_callWords {words : List (BitVec h.guest.wordBits)}
    (hargs : List.Forall₂ (fun t x => t.Denotes m x) args words)
    (hcall : h.callWords args = .ok (value, needs)) :
    ∀ need ∈ needs, ∃ b, need.Decides m b ∧ (h.ModeledWords m args → b = true) := by
  intro need hneed
  rcases callWords_cases hcall with
    ⟨code, ccOp, dep1, dep2, ndep, cond, opNeeds, hquery, rfl, hop, -, rfl⟩ |
    ⟨ccOp, dep1, dep2, ndep, hquery, rfl, hop⟩ | ⟨ccOp, dep1, dep2, ndep, hquery, rfl, hop⟩
  · obtain ⟨c, rest, hcode, hrest, rfl⟩ := List.forall₂_cons_left_iff.1 hargs
    obtain ⟨k, -, -, -, -, hk, -⟩ := forall₂_four hrest
    simp only [ModeledWords, hquery]
    rcases List.mem_append.1 hneed with hneed | hneed
    · exact ⟨_, decides_overThunkOp hk hop need hneed, fun hmodeled => hmodeled.1.isSome hk⟩
    · refine ⟨_, decides_codeConstraints hcode need hneed, fun hmodeled => ?_⟩
      have hconst : ¬code.isConstant = true := by
        intro hconst
        rw [codeConstraints, if_pos hconst] at hneed
        exact List.not_mem_nil hneed
      exact decide_eq_true (hmodeled.2.lt hconst hcode)
  · obtain ⟨k, -, -, -, -, hk, -⟩ := forall₂_four hargs
    simp only [ModeledWords, hquery]
    exact ⟨_, decides_overThunkOp hk hop need hneed, fun hmodeled => hmodeled.isSome hk⟩
  · obtain ⟨k, -, -, -, -, hk, -⟩ := forall₂_four hargs
    simp only [ModeledWords, hquery]
    exact ⟨_, decides_overThunkOp hk hop need hneed, fun hmodeled => hmodeled.isSome hk⟩

theorem modeledWords_of_callWords (hargs : ∀ t ∈ args, t.width = h.guest.wordBits)
    (hcall : h.callWords args = .ok (value, needs))
    (hneeds : ∀ need ∈ needs, need.Decides m true) : h.ModeledWords m args := by
  rcases callWords_cases hcall with
    ⟨code, ccOp, dep1, dep2, ndep, cond, opNeeds, hquery, rfl, hop, -, rfl⟩ |
    ⟨ccOp, dep1, dep2, ndep, hquery, rfl, hop⟩ | ⟨ccOp, dep1, dep2, ndep, hquery, rfl, hop⟩
  · rw [List.forall_mem_append] at hneeds
    simp only [ModeledWords, hquery]
    exact ⟨models_of_overThunkOp (hargs ccOp (by simp)) hop hneeds.1,
      knownCode_of_codeConstraints (hargs code (by simp)) hneeds.2⟩
  · simp only [ModeledWords, hquery]
    exact models_of_overThunkOp (hargs ccOp (by simp)) hop hneeds
  · simp only [ModeledWords, hquery]
    exact models_of_overThunkOp (hargs ccOp (by simp)) hop hneeds

/-! ### Arguments of any width -/

variable {values : List Bits}

theorem denotes_words (h : Helper) (hargs : List.Forall₂ (Term.Evaluates m) args values) :
    List.Forall₂ (fun t (x : BitVec h.guest.wordBits) => t.Denotes m x)
      (args.map (resize h.guest.wordBits))
      (values.map fun c => c.value.setWidth h.guest.wordBits) := by
  rw [List.forall₂_map_left_iff, List.forall₂_map_right_iff]
  exact hargs.imp fun _ _ harg =>
    denotes_resize harg.2 h.guest.wordBits_pos h.guest.wordBits_le

/-- A call has a value, and that of `compute` if it is modeled. -/
theorem exists_denotes_call (hargs : List.Forall₂ (Term.Evaluates m) args values)
    (hcall : h.call args = .ok (value, needs)) :
    ∃ x : BitVec h.guest.wordBits, value.Denotes m x ∧
      (h.Modeled m args → h.compute values = some x) :=
  exists_denotes_callWords (denotes_words h hargs) (call_eq h args ▸ hcall)

/-- The constraints of a call have truths, and are true if it is modeled. -/
theorem exists_decides_call (hargs : List.Forall₂ (Term.Evaluates m) args values)
    (hcall : h.call args = .ok (value, needs)) :
    ∀ need ∈ needs, ∃ b, need.Decides m b ∧ (h.Modeled m args → b = true) :=
  exists_decides_callWords (denotes_words h hargs) (call_eq h args ▸ hcall)

/-- A call whose constraints are true is modeled. -/
theorem modeled_of_call (hcall : h.call args = .ok (value, needs))
    (hneeds : ∀ need ∈ needs, need.Decides m true) : h.Modeled m args := by
  refine modeledWords_of_callWords (fun t ht => ?_) (call_eq h args ▸ hcall) hneeds
  obtain ⟨arg, -, rfl⟩ := List.mem_map.1 ht
  exact width_resize h.guest.wordBits_pos

end Helper

end SymLift
