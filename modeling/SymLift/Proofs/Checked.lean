import SymLift.Proofs.Denotation

/-!
# Checked constructors that succeed

A checked constructor that gives a term gives what the folding constructor
gives, and its checks hold.  There is one lemma for each constructor.  They
are the converse of `Build.lit_ok` and its companions: those say when a
constructor succeeds, and these what follows if it did.

`denotes_binary`, `decides_compare` and their companions add the value.  The
widths of two operands are equal only because a check says so, so the second
operand is written at the width of the first.
-/

namespace SymLift.Build

variable {arg left right high low cond thenArm elseArm t : Term} {w value : Nat}

/-! ## Bit-vectors -/

theorem of_lit (h : lit value w = .ok t) : (0 < w ∧ w ≤ Word.maxBits) ∧ Fold.lit value w = t := by
  unfold lit at h
  split at h
  · rename_i hw
    exact ⟨hw, Except.ok.inj h⟩
  · cases h

theorem of_var {name : String} (h : var name w = .ok t) :
    (0 < w ∧ w ≤ Word.maxBits) ∧ Term.var name w = t := by
  unfold var at h
  split at h
  · rename_i hw
    exact ⟨hw, Except.ok.inj h⟩
  · cases h

theorem of_binary {op : BinaryOp} (h : binary op left right = .ok t) :
    left.width = right.width ∧ Fold.binary op left right = t := by
  unfold binary at h
  split at h
  · rename_i hw
    exact ⟨hw, Except.ok.inj h⟩
  · cases h

theorem of_extract {hi lo : Nat} (h : extract hi lo arg = .ok t) :
    (lo ≤ hi ∧ hi < arg.width) ∧ Fold.extract hi lo arg = t := by
  unfold extract at h
  split at h
  · rename_i hw
    exact ⟨hw, Except.ok.inj h⟩
  · cases h

theorem of_concat (h : concat high low = .ok t) :
    high.width + low.width ≤ Word.maxBits ∧ Fold.concat high low = t := by
  obtain ⟨_, _, h⟩ := bind_eq_ok_iff.1 h
  split at h
  · rename_i hw
    exact ⟨hw, Except.ok.inj h⟩
  · cases h

theorem of_zeroExt {count : Nat} (h : zeroExt count arg = .ok t) : Fold.zeroExt count arg = t := by
  obtain ⟨_, _, h⟩ := bind_eq_ok_iff.1 h
  exact Except.ok.inj h

theorem of_signExt {count : Nat} (h : signExt count arg = .ok t) : Fold.signExt count arg = t := by
  obtain ⟨_, _, h⟩ := bind_eq_ok_iff.1 h
  exact Except.ok.inj h

theorem of_resize (h : resize w arg = .ok t) : Fold.resize w arg = t := by
  unfold resize at h
  unfold Fold.resize
  split at h
  · rename_i hsame
    rw [if_pos hsame]
    exact Except.ok.inj h
  · rename_i hne
    rw [if_neg hne]
    split at h
    · rename_i hlt
      rw [if_pos hlt]
      exact of_zeroExt h
    · rename_i hge
      rw [if_neg hge]
      split at h
      · cases h
      · exact (of_extract h).2

theorem of_shift {op : BinaryOp} {amount : Term} (h : shift op arg amount = .ok t) :
    Fold.shift op arg amount = t := by
  obtain ⟨resized, hresized, h⟩ := bind_eq_ok_iff.1 h
  rw [Fold.shift, of_resize hresized]
  exact (of_binary h).2

/-! ## Booleans -/

theorem of_compare {op : CompareOp} (h : compare op left right = .ok t) :
    left.width = right.width ∧ Fold.compare op left right = t := by
  unfold compare at h
  split at h
  · rename_i hw
    exact ⟨hw, Except.ok.inj h⟩
  · cases h

theorem of_not (h : not arg = .ok t) : Fold.not arg = t := by
  obtain ⟨_, _, h⟩ := bind_eq_ok_iff.1 h
  exact Except.ok.inj h

theorem of_notEqual (h : notEqual left right = .ok t) :
    left.width = right.width ∧ Fold.notEqual left right = t := by
  obtain ⟨equal, hequal, h⟩ := bind_eq_ok_iff.1 h
  obtain ⟨hw, rfl⟩ := of_compare hequal
  exact ⟨hw, of_not h⟩

theorem of_conj {terms : List Term} (h : conj terms = .ok t) : Fold.conj terms = t := by
  obtain ⟨_, _, h⟩ := bind_eq_ok_iff.1 h
  exact Except.ok.inj h

theorem of_disj {terms : List Term} (h : disj terms = .ok t) : Fold.disj terms = t := by
  obtain ⟨_, _, h⟩ := bind_eq_ok_iff.1 h
  exact Except.ok.inj h

theorem of_ite (h : ite cond thenArm elseArm = .ok t) :
    thenArm.sort = elseArm.sort ∧ Fold.ite cond thenArm elseArm = t := by
  obtain ⟨_, _, h⟩ := bind_eq_ok_iff.1 h
  split at h
  · rename_i hsort
    exact ⟨hsort, Except.ok.inj h⟩
  · cases h

theorem of_boolToBits (h : boolToBits w cond = .ok t) :
    (0 < w ∧ w ≤ Word.maxBits) ∧ Fold.boolToBits w cond = t := by
  obtain ⟨one, hone, h⟩ := bind_eq_ok_iff.1 h
  obtain ⟨zero, hzero, h⟩ := bind_eq_ok_iff.1 h
  obtain ⟨hw, rfl⟩ := of_lit hone
  obtain ⟨-, rfl⟩ := of_lit hzero
  exact ⟨hw, (of_ite h).2⟩

/-! ## The value of what was built -/

variable {m : Model} {v : Nat} {x : BitVec w} {y : BitVec v}

theorem width_eq_of_denotes (hl : left.Denotes m x) (hr : right.Denotes m y)
    (h : left.width = right.width) : v = w := by
  rw [← hl.width_eq, ← hr.width_eq, h]

theorem denotes_binary {op : BinaryOp} (h : binary op left right = .ok t) (hl : left.Denotes m x)
    (hr : right.Denotes m y) : v = w ∧ t.Denotes m (op.onBits x (y.setWidth w)) := by
  obtain ⟨hw, rfl⟩ := of_binary h
  obtain rfl := width_eq_of_denotes hl hr hw
  rw [BitVec.setWidth_eq]
  exact ⟨rfl, Fold.denotes_binary op hl hr⟩

theorem decides_compare {op : CompareOp} (h : compare op left right = .ok t)
    (hl : left.Denotes m x) (hr : right.Denotes m y) :
    v = w ∧ t.Decides m (op.onBits x (y.setWidth w)) := by
  obtain ⟨hw, rfl⟩ := of_compare h
  obtain rfl := width_eq_of_denotes hl hr hw
  rw [BitVec.setWidth_eq]
  exact ⟨rfl, Fold.decides_compare op hl hr⟩

theorem decides_notEqual (h : notEqual left right = .ok t) (hl : left.Denotes m x)
    (hr : right.Denotes m y) : v = w ∧ t.Decides m (x != y.setWidth w) := by
  obtain ⟨hw, rfl⟩ := of_notEqual h
  obtain rfl := width_eq_of_denotes hl hr hw
  rw [BitVec.setWidth_eq]
  exact ⟨rfl, Fold.decides_notEqual hl hr⟩

theorem denotes_boolToBits {b : Bool} (h : boolToBits w cond = .ok t) (hc : cond.Decides m b) :
    t.Denotes m (BitVec.ofNat w b.toNat) := by
  obtain ⟨hw, rfl⟩ := of_boolToBits h
  exact Fold.denotes_boolToBits hc hw.2

theorem denotes_lit (h : lit value w = .ok t) : t.Denotes m (BitVec.ofNat w value) := by
  obtain ⟨hw, rfl⟩ := of_lit h
  exact Fold.denotes_lit value hw.2

theorem denotes_ite {b : Bool} (h : ite cond thenArm elseArm = .ok t) (hc : cond.Decides m b)
    (harm : (if b then thenArm else elseArm).Denotes m x) : t.Denotes m x := by
  obtain ⟨hsort, rfl⟩ := of_ite h
  exact Fold.denotes_ite hc hsort harm

end SymLift.Build
