import SymLift.Proofs.FoldClosed
import SymLift.Proofs.Valuation

/-!
# No operation invents a variable

`Term.Over V` says that every variable of a term, with its width, is in a set
`V`.  The folding constructors give a term over `V` if their operands are, so
`FoldClosed.over` says it of all that is built from terms over `V`: the values
of operators and of flag helpers, whatever the sorts of their operands, and
what is read from stores.

* `Term.over_binary_iff` and its companions: a node is over `V` if its parts
  are.
* `Fold.over_unary` to `Fold.over_ite`: the folding constructors.
-/

namespace SymLift

variable {V : Set (String × Nat)}

/-! ## Constructors -/

namespace Term

/-- Every variable of a term, at the width that it has there, is in a set. -/
def Over (V : Set (String × Nat)) (t : Term) : Prop := ∀ p ∈ t.occurrences, p ∈ V

variable {arg left right cond thenArm elseArm : Term} {terms : List Term}

theorem over_const (value width : Nat) : (Term.const value width).Over V := nofun

theorem over_bool (value : Bool) : (Term.bool value).Over V := nofun

theorem over_var_iff {name : String} {width : Nat} :
    (Term.var name width).Over V ↔ (name, width) ∈ V := by
  simp [Over]

theorem over_binary_iff {op : BinaryOp} :
    (Term.binary op left right).Over V ↔ left.Over V ∧ right.Over V :=
  List.forall_mem_append

theorem over_compare_iff {op : CompareOp} :
    (Term.compare op left right).Over V ↔ left.Over V ∧ right.Over V :=
  List.forall_mem_append

theorem over_concat_iff : (Term.concat left right).Over V ↔ left.Over V ∧ right.Over V :=
  List.forall_mem_append

theorem over_ite_iff :
    (Term.ite cond thenArm elseArm).Over V ↔ cond.Over V ∧ thenArm.Over V ∧ elseArm.Over V :=
  List.forall_mem_append.trans (and_congr_right' List.forall_mem_append)

theorem over_all_iff : (∀ p ∈ occurrencesAll terms, p ∈ V) ↔ ∀ t ∈ terms, t.Over V := by
  simp only [mem_occurrencesAll, Over]
  exact ⟨fun h t ht p hp => h p ⟨t, ht, hp⟩, fun h p ⟨t, ht, hp⟩ => h t ht p hp⟩

end Term

namespace Fold

open Term

variable {arg left right high low cond thenArm elseArm : Term} {terms : List Term}

theorem over_lit (value width : Nat) : (lit value width).Over V := over_const _ _

theorem over_unary (op : UnaryOp) (h : arg.Over V) : (unary op arg).Over V := by
  unfold unary
  split
  · exact over_lit _ _
  · exact h

theorem over_binary (op : BinaryOp) (hl : left.Over V) (hr : right.Over V) :
    (binary op left right).Over V := by
  unfold binary
  split
  · exact over_lit _ _
  · exact over_binary_iff.2 ⟨hl, hr⟩

theorem over_extract (hi lo : Nat) (h : arg.Over V) : (extract hi lo arg).Over V := by
  unfold extract
  split
  · exact h
  · split
    · exact over_lit _ _
    · exact h

theorem over_concat (hh : high.Over V) (hl : low.Over V) : (concat high low).Over V := by
  unfold concat
  split
  · exact over_lit _ _
  · exact over_concat_iff.2 ⟨hh, hl⟩

theorem over_zeroExt (count : Nat) (h : arg.Over V) : (zeroExt count arg).Over V := by
  unfold zeroExt
  split
  · exact h
  · split
    · exact over_lit _ _
    · exact h

theorem over_signExt (count : Nat) (h : arg.Over V) : (signExt count arg).Over V := by
  unfold signExt
  split
  · exact h
  · split
    · exact over_lit _ _
    · exact h

theorem over_compare (op : CompareOp) (hl : left.Over V) (hr : right.Over V) :
    (compare op left right).Over V := by
  unfold compare
  split
  · exact over_bool _
  · split
    · exact over_bool _
    · exact over_compare_iff.2 ⟨hl, hr⟩

theorem over_not (h : arg.Over V) : (not arg).Over V := by
  unfold not
  split
  · exact over_bool _
  · exact h
  · exact h

theorem over_connect {neutral : Bool} {node : List Term → Term}
    (hnode : ∀ kept, (∀ t ∈ kept, t.Over V) → (node kept).Over V) (h : ∀ t ∈ terms, t.Over V) :
    (connect neutral node terms).Over V :=
  connect_induction (over_bool neutral) h fun kept hkept =>
    hnode kept fun t ht => h t (hkept t ht)

theorem over_conj (h : ∀ t ∈ terms, t.Over V) : (conj terms).Over V :=
  over_connect (fun _ => over_all_iff.2) h

theorem over_disj (h : ∀ t ∈ terms, t.Over V) : (disj terms).Over V :=
  over_connect (fun _ => over_all_iff.2) h

theorem over_ite (hc : cond.Over V) (ht : thenArm.Over V) (he : elseArm.Over V) :
    (ite cond thenArm elseArm).Over V := by
  unfold ite
  split
  · exact ht
  · exact he
  · split
    · exact ht
    · exact over_ite_iff.2 ⟨hc, ht, he⟩

end Fold

/-- The folding constructors keep terms over a set. -/
def FoldClosed.over (V : Set (String × Nat)) : FoldClosed where
  word := Term.Over V
  truth := Term.Over V
  lit := Fold.over_lit
  unary := Fold.over_unary
  binary := Fold.over_binary
  extract := Fold.over_extract
  concat := Fold.over_concat
  zeroExt := Fold.over_zeroExt
  signExt := Fold.over_signExt
  ite := Fold.over_ite
  compare := Fold.over_compare
  not := Fold.over_not
  conj := Fold.over_conj
  disj := Fold.over_disj
  truthIte := Fold.over_ite

end SymLift
