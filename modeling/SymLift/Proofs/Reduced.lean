import SymLift.Proofs.FoldClosed

/-!
# Constants fit their widths

A constant is `Term.Reduced` if its value fits its width.  That is all that
is left of well-formedness for the value of a tree that is not well typed:
the operands of an operator may have any sorts and widths, and yet its value
is reduced if theirs are.

* `Fold.reduced_unary` to `Fold.reduced_ite`: the folding constructors keep
  terms reduced.  Those that compute reduce their result themselves.
* `FoldClosed.reduced` says it of all that is built from reduced terms.
* `ByteStore.reduced_load`: so does a load, whether or not it is placed.
-/

namespace SymLift

namespace Term

/-- A constant fits its width. -/
def Reduced (t : Term) : Prop := ∀ value, t.constValue? = some value → value < Word.size t.width

variable {t : Term} {w : Nat}

theorem HasSort.reduced (h : t.HasSort (.bitVec w)) : t.Reduced := by
  intro value hvalue
  cases h with
  | const _ _ lt =>
    obtain rfl := Option.some.inj hvalue
    exact lt
  | _ => cases hvalue

theorem reduced_of_constValue? (h : t.constValue? = none) : t.Reduced := by
  intro value hvalue
  rw [h] at hvalue
  cases hvalue

/-- A reduced constant of at most 64 bits is an address. -/
theorem Reduced.constValue?_eq_none (h : t.Reduced) (le : t.width ≤ 64)
    (hnone : t.addressValue? = none) : t.constValue? = none := by
  by_contra hsome
  obtain ⟨value, hvalue⟩ := Option.ne_none_iff_exists'.1 hsome
  have hlt : value < UInt64.size := by
    refine (h value hvalue).trans_le ?_
    rw [Word.size_eq (le.trans (by decide))]
    exact Nat.pow_le_pow_right Nat.two_pos le
  rw [addressValue?_eq_some_iff.2 ⟨hvalue, hlt⟩] at hnone
  cases hnone

end Term

namespace Fold

open Term

variable {arg left right high low cond thenArm elseArm : Term}

theorem reduced_lit (value w : Nat) : (lit value w).Reduced := by
  intro other hvalue
  obtain rfl := Option.some.inj hvalue
  exact Word.truncate_lt w value

theorem reduced_unary (op : UnaryOp) : (unary op arg).Reduced := by
  unfold unary
  split
  · exact reduced_lit _ _
  · exact reduced_of_constValue? rfl

theorem reduced_binary (op : BinaryOp) : (binary op left right).Reduced := by
  unfold binary
  split
  · exact reduced_lit _ _
  · exact reduced_of_constValue? rfl

theorem reduced_concat : (concat high low).Reduced := by
  unfold concat
  split
  · exact reduced_lit _ _
  · exact reduced_of_constValue? rfl

theorem reduced_extract (h : arg.Reduced) (hi lo : Nat) : (extract hi lo arg).Reduced := by
  unfold extract
  split
  · exact h
  · split
    · exact reduced_lit _ _
    · exact reduced_of_constValue? rfl

theorem reduced_zeroExt (h : arg.Reduced) (count : Nat) : (zeroExt count arg).Reduced := by
  unfold zeroExt
  split
  · exact h
  · split
    · exact reduced_lit _ _
    · exact reduced_of_constValue? rfl

theorem reduced_signExt (h : arg.Reduced) (count : Nat) : (signExt count arg).Reduced := by
  unfold signExt
  split
  · exact h
  · split
    · exact reduced_lit _ _
    · exact reduced_of_constValue? rfl

theorem reduced_ite (ht : thenArm.Reduced) (he : elseArm.Reduced) :
    (ite cond thenArm elseArm).Reduced := by
  unfold ite
  split
  · exact ht
  · exact he
  · split
    · exact ht
    · exact reduced_of_constValue? rfl

end Fold

/-- The folding constructors keep terms reduced.  Nothing is asked of
conditions, which are no bit-vectors. -/
def FoldClosed.reduced : FoldClosed where
  word := Term.Reduced
  truth _ := True
  lit := Fold.reduced_lit
  unary op _ := Fold.reduced_unary op
  binary op _ _ := Fold.reduced_binary op
  extract hi lo h := Fold.reduced_extract h hi lo
  concat _ _ := Fold.reduced_concat
  zeroExt count h := Fold.reduced_zeroExt h count
  signExt count h := Fold.reduced_signExt h count
  ite _ ht he := Fold.reduced_ite ht he
  compare _ _ _ := trivial
  not _ := trivial
  conj _ := trivial
  disj _ := trivial
  truthIte _ _ _ := trivial

/-- A constant that is loaded is reduced, if those in the store are. -/
theorem ByteStore.reduced_load {s : ByteStore} {addr t : Term} {known : List Term} {w : Nat}
    (hs : ∀ place, (s.byteAt place).Reduced) (h : s.load addr w known = .ok t) : t.Reduced :=
  FoldClosed.reduced.of_load hs (Term.reduced_of_constValue? rfl) h

end SymLift
