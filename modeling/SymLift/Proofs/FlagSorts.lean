import SymLift.Proofs.FlagBuild
import SymLift.Proofs.Helpers

/-!
# Flag helpers give well-formed terms

A helper that is called on well-formed words gives a well-formed word, and
constraints that are well-formed booleans.

* `FlagBits.wellFormed_ofThunk`: the flags of an operation are well-formed
  terms of one bit.
* `Helper.hasSort_callWords` says it of the value and the constraints of a
  helper on words, and `Helper.hasSort_call` of a call.
-/

namespace SymLift

open Fold

namespace FlagBits

variable {arg cond result left right masked oldCarry before previous lost : Term} {n w place : Nat}

/-! ## Single flags -/

theorem hasSort_bit (h : arg.HasSort (.bitVec w)) (lt : place < w) :
    (bit arg place).HasSort (.bitVec 1) := by
  have hbit := hasSort_extract (Nat.le_refl place) lt h
  rwa [Nat.sub_self] at hbit

theorem hasSort_topBit (h : arg.HasSort (.bitVec w)) : (topBit arg).HasSort (.bitVec 1) := by
  have pos := h.width_pos
  exact hasSort_bit h (by rw [h.width_eq]; omega)

theorem hasSort_truthBit (h : cond.HasSort .bool) : (truthBit cond).HasSort (.bitVec 1) :=
  hasSort_boolToBits h Nat.one_pos (by decide)

theorem hasSort_clear : (lit 0 1).HasSort (.bitVec 1) := hasSort_lit Nat.one_pos (by decide)

theorem hasSort_zeroFlag (h : result.HasSort (.bitVec w)) :
    (zeroFlag result).HasSort (.bitVec 1) := by
  rw [zeroFlag, h.width_eq]
  exact hasSort_truthBit (hasSort_compare .eq h (hasSort_lit h.width_pos h.width_le))

theorem hasSort_parityFlag (h : result.HasSort (.bitVec w)) (le : 8 ≤ w) :
    (parityFlag result).HasSort (.bitVec 1) := by
  have hfold (places : List Nat) {odd : Term} (hodd : odd.HasSort (.bitVec 1))
      (hplaces : ∀ place ∈ places, place < w) :
      (places.foldl (fun odd place => binary .xor odd (bit result place)) odd).HasSort
        (.bitVec 1) := by
    induction places generalizing odd with
    | nil => exact hodd
    | cons place places ih =>
      obtain ⟨hplace, hrest⟩ := List.forall_mem_cons.1 hplaces
      exact ih (hasSort_binary .xor hodd (hasSort_bit h hplace)) hrest
  have hlowest : (bit result 0).HasSort (.bitVec 1) := hasSort_bit h (by omega)
  refine hasSort_unary .complement (hfold _ hlowest fun place hplace => ?_)
  rw [List.mem_range'_1] at hplace
  omega

section

variable (hresult : result.HasSort (.bitVec n)) (hl : left.HasSort (.bitVec n))
  (hr : right.HasSort (.bitVec n))

include hresult hl hr

theorem hasSort_adjustFlag (h : 4 < n) : (adjustFlag result left right).HasSort (.bitVec 1) :=
  hasSort_bit (hasSort_binary .xor (hasSort_binary .xor hresult hl) hr) h

theorem hasSort_sumOverflow : (sumOverflow result left right).HasSort (.bitVec 1) :=
  hasSort_topBit (hasSort_binary .and (hasSort_unary .complement (hasSort_binary .xor hl hr))
    (hasSort_binary .xor hl hresult))

theorem hasSort_differenceOverflow : (differenceOverflow result left right).HasSort (.bitVec 1) :=
  hasSort_topBit (hasSort_binary .and (hasSort_binary .xor hl hr) (hasSort_binary .xor hl hresult))

end

/-! ## Operations -/

/-- Every flag is a well-formed term of one bit. -/
structure WellFormed (f : FlagBits) : Prop where
  carry : f.carry.HasSort (.bitVec 1)
  parity : f.parity.HasSort (.bitVec 1)
  adjust : f.adjust.HasSort (.bitVec 1)
  zero : f.zero.HasSort (.bitVec 1)
  sign : f.sign.HasSort (.bitVec 1)
  overflow : f.overflow.HasSort (.bitVec 1)

theorem wellFormed_ofOutcome {o : Outcome} (h : 8 ≤ n) (hresult : o.result.HasSort (.bitVec n))
    (hc : o.carry.HasSort (.bitVec 1)) (ha : o.adjust.HasSort (.bitVec 1))
    (ho : o.overflow.HasSort (.bitVec 1)) : (ofOutcome o).WellFormed where
  carry := hc
  parity := hasSort_parityFlag hresult h
  adjust := ha
  zero := hasSort_zeroFlag hresult
  sign := hasSort_topBit hresult
  overflow := ho

theorem hasSort_carrySet (hc : oldCarry.HasSort (.bitVec 1)) :
    (compare .eq oldCarry (lit 1 1)).HasSort .bool :=
  hasSort_compare .eq hc (hasSort_lit Nat.one_pos (by decide))

section

variable (h : 8 ≤ n) (hl : left.HasSort (.bitVec n))

include h hl

theorem wellFormed_addOutcome (hr : right.HasSort (.bitVec n)) :
    (ofOutcome (addOutcome left right)).WellFormed := by
  have hresult := hasSort_binary .add hl hr
  exact wellFormed_ofOutcome h hresult (hasSort_truthBit (hasSort_compare .ult hresult hl))
    (hasSort_adjustFlag hresult hl hr (by omega)) (hasSort_sumOverflow hresult hl hr)

theorem wellFormed_subOutcome (hr : right.HasSort (.bitVec n)) :
    (ofOutcome (subOutcome left right)).WellFormed := by
  have hresult := hasSort_binary .sub hl hr
  exact wellFormed_ofOutcome h hresult (hasSort_truthBit (hasSort_compare .ult hl hr))
    (hasSort_adjustFlag hresult hl hr (by omega)) (hasSort_differenceOverflow hresult hl hr)

theorem hasSort_wideCarry (hc : oldCarry.HasSort (.bitVec 1)) :
    (zeroExt (n - 1) oldCarry).HasSort (.bitVec n) := by
  have hn := hl.width_le
  have hwide : (zeroExt (n - 1) oldCarry).HasSort (.bitVec (1 + (n - 1))) :=
    hasSort_zeroExt hc (by omega)
  rwa [show 1 + (n - 1) = n by omega] at hwide

theorem wellFormed_adcOutcome (hm : masked.HasSort (.bitVec n))
    (hc : oldCarry.HasSort (.bitVec 1)) :
    (ofOutcome (adcOutcome n left masked oldCarry)).WellFormed := by
  have hwide := hasSort_wideCarry h hl hc
  have hright := hasSort_binary .xor hm hwide
  have hresult := hasSort_binary .add (hasSort_binary .add hl hright) hwide
  have hcarry := hasSort_ite (hasSort_carrySet hc) (hasSort_compare .ule hresult hl)
    (hasSort_compare .ult hresult hl)
  exact wellFormed_ofOutcome h hresult (hasSort_truthBit hcarry)
    (hasSort_adjustFlag hresult hl hright (by omega)) (hasSort_sumOverflow hresult hl hright)

theorem wellFormed_sbbOutcome (hm : masked.HasSort (.bitVec n))
    (hc : oldCarry.HasSort (.bitVec 1)) :
    (ofOutcome (sbbOutcome n left masked oldCarry)).WellFormed := by
  have hwide := hasSort_wideCarry h hl hc
  have hright := hasSort_binary .xor hm hwide
  have hresult := hasSort_binary .sub (hasSort_binary .sub hl hright) hwide
  have hcarry := hasSort_ite (hasSort_carrySet hc) (hasSort_compare .ule hl hright)
    (hasSort_compare .ult hl hright)
  exact wellFormed_ofOutcome h hresult (hasSort_truthBit hcarry)
    (hasSort_adjustFlag hresult hl hright (by omega)) (hasSort_differenceOverflow hresult hl hright)

theorem wellFormed_stepOutcome (hb : before.HasSort (.bitVec n))
    (hc : oldCarry.HasSort (.bitVec 1)) (overflowAt : Nat) :
    (ofOutcome (stepOutcome n left before oldCarry overflowAt)).WellFormed := by
  have hlit (value : Nat) : (lit value n).HasSort (.bitVec n) :=
    hasSort_lit hl.width_pos hl.width_le
  exact wellFormed_ofOutcome h hl hc (hasSort_adjustFlag hl hb (hlit 1) (by omega))
    (hasSort_truthBit (hasSort_compare .eq hl (hlit overflowAt)))

theorem wellFormed_shiftOutcome (hp : previous.HasSort (.bitVec n))
    (hlost : lost.HasSort (.bitVec 1)) :
    (ofOutcome (shiftOutcome left previous lost)).WellFormed :=
  wellFormed_ofOutcome h hl hlost hasSort_clear (hasSort_topBit (hasSort_binary .xor hl hp))

end

theorem wellFormed_ofThunk {dep1 dep2 ndep : Term} (op : ThunkOp) (hn : 8 ≤ n) (le : n ≤ w)
    (hw : 12 ≤ w) (h1 : dep1.HasSort (.bitVec w)) (h2 : dep2.HasSort (.bitVec w))
    (hnd : ndep.HasSort (.bitVec w)) : (ofThunk op n dep1 dep2 ndep).WellFormed := by
  have hcut {dep : Term} (hdep : dep.HasSort (.bitVec w)) :
      (extract (n - 1) 0 dep).HasSort (.bitVec n) := by
    have hlow := hasSort_extract (Nat.zero_le (n - 1)) (by omega) hdep
    rwa [show n - 1 - 0 + 1 = n by omega] at hlow
  have hl := hcut h1
  have hr := hcut h2
  have hc : (bit ndep carryPlace).HasSort (.bitVec 1) :=
    hasSort_bit hnd (by rw [carryPlace]; omega)
  have hone : (lit 1 n).HasSort (.bitVec n) := hasSort_lit hl.width_pos hl.width_le
  cases op with
  | copy =>
    have hbit (place : Nat) (hplace : place < 12) : (bit dep1 place).HasSort (.bitVec 1) :=
      hasSort_bit h1 (by omega)
    exact ⟨hbit carryPlace (by decide), hbit parityPlace (by decide), hbit adjustPlace (by decide),
      hbit zeroPlace (by decide), hbit signPlace (by decide), hbit overflowPlace (by decide)⟩
  | add => exact wellFormed_addOutcome hn hl hr
  | sub => exact wellFormed_subOutcome hn hl hr
  | adc => exact wellFormed_adcOutcome hn hl hr hc
  | sbb => exact wellFormed_sbbOutcome hn hl hr hc
  | logic => exact wellFormed_ofOutcome hn hl hasSort_clear hasSort_clear hasSort_clear
  | inc => exact wellFormed_stepOutcome hn hl (hasSort_binary .sub hl hone) hc _
  | dec => exact wellFormed_stepOutcome hn hl (hasSort_binary .add hl hone) hc _
  | shl => exact wellFormed_shiftOutcome hn hl hr (hasSort_topBit hr)
  | shr => exact wellFormed_shiftOutcome hn hl hr (hasSort_bit hr (by omega))

/-! ## What is read off the flags -/

variable {f : FlagBits}

theorem hasSort_placed {flag : Term} (hf : flag.HasSort (.bitVec 1)) (pos : 0 < w)
    (le : w ≤ Word.maxBits) (place : Nat) : (placed w flag place).HasSort (.bitVec w) := by
  have hwide : (zeroExt (w - 1) flag).HasSort (.bitVec (1 + (w - 1))) :=
    hasSort_zeroExt hf (by omega)
  rw [show 1 + (w - 1) = w by omega] at hwide
  exact hasSort_shift .shl hwide (hasSort_lit pos le)

theorem WellFormed.pack (h : f.WellFormed) (pos : 0 < w) (le : w ≤ Word.maxBits) :
    (f.pack w).HasSort (.bitVec w) := by
  have hplaced {flag : Term} (hf : flag.HasSort (.bitVec 1)) := hasSort_placed hf pos le
  have hparity := hasSort_binary .or (hplaced h.carry carryPlace) (hplaced h.parity parityPlace)
  have hadjust := hasSort_binary .or hparity (hplaced h.adjust adjustPlace)
  have hzero := hasSort_binary .or hadjust (hplaced h.zero zeroPlace)
  have hsign := hasSort_binary .or hzero (hplaced h.sign signPlace)
  exact hasSort_binary .or hsign (hplaced h.overflow overflowPlace)

theorem WellFormed.conditionBit (h : f.WellFormed) (code : Nat) :
    (f.conditionBit code).HasSort (.bitVec 1) := by
  have hless := hasSort_binary .xor h.sign h.overflow
  have hnegate {base : Term} (hbase : base.HasSort (.bitVec 1)) :
      (if code % 2 = 1 then unary .complement base else base).HasSort (.bitVec 1) := by
    split
    · exact hasSort_unary .complement hbase
    · exact hbase
  unfold FlagBits.conditionBit
  split
  · exact hnegate h.overflow
  · exact hnegate h.carry
  · exact hnegate h.zero
  · exact hnegate (hasSort_binary .or h.carry h.zero)
  · exact hnegate h.sign
  · exact hnegate h.parity
  · exact hnegate hless
  · exact hnegate (hasSort_binary .or hless h.zero)

/-- A choice among numbered arms that are well formed. -/
theorem hasSort_select {tests arms : Nat → Term} {last : Term} {s : TermSort} (choices : List Nat)
    (htests : ∀ i ∈ choices, (tests i).HasSort .bool) (harms : ∀ i ∈ choices, (arms i).HasSort s)
    (hlast : last.HasSort s) :
    (choices.foldr (fun i rest => ite (tests i) (arms i) rest) last).HasSort s := by
  induction choices with
  | nil => exact hlast
  | cons i choices ih =>
    obtain ⟨htest, htests⟩ := List.forall_mem_cons.1 htests
    obtain ⟨harm, harms⟩ := List.forall_mem_cons.1 harms
    exact hasSort_ite htest harm (ih htests harms)

theorem hasSort_test {t : Term} (h : t.HasSort (.bitVec w)) (op : CompareOp) (value : Nat) :
    (compare op t (lit value t.width)).HasSort .bool := by
  rw [h.width_eq]
  exact hasSort_compare op h (hasSort_lit h.width_pos h.width_le)

theorem WellFormed.condition (h : f.WellFormed) {code : Term} (hcode : code.HasSort (.bitVec w)) :
    (f.condition code).HasSort (.bitVec 1) := by
  unfold FlagBits.condition
  split
  · exact h.conditionBit _
  · exact hasSort_select _ (fun c _ => hasSort_test hcode .eq c) (fun c _ => h.conditionBit c)
      (h.conditionBit 15)

end FlagBits

/-! ## Calls -/

namespace Helper

open FlagBits (hasSort_select hasSort_test)

variable {h : Helper} {ccOp code value : Term} {needs args : List Term} {w : Nat} {s : TermSort}
  {f : ThunkOp → Nat → Term}

theorem hasSort_isModeled (g : Guest) (hop : ccOp.HasSort (.bitVec w)) :
    (g.isModeled ccOp).HasSort .bool := by
  refine hasSort_disj fun t ht => ?_
  obtain ⟨op, -, rfl⟩ := Guest.mem_tests_iff.1 ht
  exact hasSort_test hop .eq op

theorem hasSort_atThunkOp {g : Guest}
    (hf : ∀ op n, 8 ≤ n → n ≤ g.wordBits → (f op n).HasSort s) (op : Nat) :
    (g.atThunkOp f op).HasSort s := by
  obtain ⟨hn, le⟩ := g.thunkAt_bounds op
  rw [Guest.atThunkOp_eq]
  exact hf _ _ hn le

theorem hasSort_overThunkOp (hf : ∀ op n, 8 ≤ n → n ≤ h.guest.wordBits → (f op n).HasSort s)
    (hop : ccOp.HasSort (.bitVec w)) (hcall : h.overThunkOp ccOp f = .ok (value, needs)) :
    value.HasSort s ∧ ∀ t ∈ needs, t.HasSort .bool := by
  unfold overThunkOp at hcall
  split at hcall
  · split at hcall
    · rename_i hdecode
      obtain ⟨hn, le⟩ := Guest.dataWidth_bounds hdecode
      cases hcall
      exact ⟨hf _ _ hn le, List.forall_mem_nil _⟩
    · cases hcall
  · cases hcall
    have hat := hasSort_atThunkOp hf
    exact ⟨hasSort_select _ (fun op _ => hasSort_test hop .eq op) (fun op _ => hat op) (hat 0),
      List.forall_mem_singleton.2 (hasSort_isModeled h.guest hop)⟩

theorem hasSort_codeConstraints (hcode : code.HasSort (.bitVec w)) :
    ∀ t ∈ codeConstraints code, t.HasSort .bool := by
  unfold codeConstraints
  split
  · exact List.forall_mem_nil _
  · exact List.forall_mem_singleton.2 (hasSort_test hcode .ult 16)

theorem hasSort_inWord (g : Guest) {flag : Term} (hf : flag.HasSort (.bitVec 1)) :
    (zeroExt (g.wordBits - 1) flag).HasSort (.bitVec g.wordBits) := by
  have pos := g.wordBits_pos
  have le := g.wordBits_le
  have hword : (zeroExt (g.wordBits - 1) flag).HasSort (.bitVec (1 + (g.wordBits - 1))) :=
    hasSort_zeroExt hf (by omega)
  rwa [show 1 + (g.wordBits - 1) = g.wordBits by omega] at hword

theorem hasSort_callWords (hargs : ∀ t ∈ args, t.HasSort (.bitVec h.guest.wordBits))
    (hcall : h.callWords args = .ok (value, needs)) :
    value.HasSort (.bitVec h.guest.wordBits) ∧ ∀ t ∈ needs, t.HasSort .bool := by
  obtain ⟨hlow, -⟩ := wordBits_bounds h.guest
  have pos := h.guest.wordBits_pos
  have le := h.guest.wordBits_le
  rcases callWords_cases hcall with
    ⟨code, ccOp, dep1, dep2, ndep, cond, opNeeds, -, rfl, hop, rfl, rfl⟩ |
    ⟨ccOp, dep1, dep2, ndep, -, rfl, hop⟩ | ⟨ccOp, dep1, dep2, ndep, -, rfl, hop⟩
  · simp only [List.forall_mem_cons] at hargs
    obtain ⟨hcode, hccOp, h1, h2, hnd, -⟩ := hargs
    obtain ⟨hcond, hneeds⟩ := hasSort_overThunkOp (fun op n hn hle =>
      (FlagBits.wellFormed_ofThunk op hn hle hlow h1 h2 hnd).condition hcode) hccOp hop
    exact ⟨hasSort_inWord h.guest hcond,
      List.forall_mem_append.2 ⟨hneeds, hasSort_codeConstraints hcode⟩⟩
  · simp only [List.forall_mem_cons] at hargs
    obtain ⟨hccOp, h1, h2, hnd, -⟩ := hargs
    exact hasSort_overThunkOp (fun op n hn hle =>
      (FlagBits.wellFormed_ofThunk op hn hle hlow h1 h2 hnd).pack pos le) hccOp hop
  · simp only [List.forall_mem_cons] at hargs
    obtain ⟨hccOp, h1, h2, hnd, -⟩ := hargs
    exact hasSort_overThunkOp (fun op n hn hle => hasSort_inWord h.guest
      (FlagBits.wellFormed_ofThunk op hn hle hlow h1 h2 hnd).carry) hccOp hop

/-- A helper that is called on well-formed terms. -/
theorem hasSort_call (hargs : ∀ t ∈ args, ∃ w, t.HasSort (.bitVec w))
    (hcall : h.call args = .ok (value, needs)) :
    value.HasSort (.bitVec h.guest.wordBits) ∧ ∀ t ∈ needs, t.HasSort .bool := by
  refine hasSort_callWords (fun t ht => ?_) (call_eq h args ▸ hcall)
  obtain ⟨arg, harg, rfl⟩ := List.mem_map.1 ht
  obtain ⟨w, hsort⟩ := hargs arg harg
  exact hasSort_resize hsort h.guest.wordBits_pos h.guest.wordBits_le

end Helper

end SymLift
