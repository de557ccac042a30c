import SymLift.Proofs.Constants
import SymLift.Proofs.Operators
import SymLift.Term.Construction

/-!
# The meaning of a term as written

A `Construction` is written before any check and any simplification.  Here
it gets its meaning in SMT-LIB, which looks at no built term, and the term
that the constructors build is shown to have that meaning.

* `Construction.HasSort` says that every operand is of the sort and width
  that its constructor asks for, and that every width is one of a word.
  `UnaryCall.Takes` and `BinaryCall.Takes` are the rules of single calls.
* `Construction.meaning?` is the value of a construction under a model.  The
  operations on bit-vectors are those of `BinaryOp.onBits`, and
  `FollowsSmtLib` lists what they do where a quotient or a shift has no
  natural value.
* `realizes_callUnary` and `realizes_callBinary`: a single call builds a term
  that has the meaning of the call.
* `build_has_meaning`: so do nested calls.  A construction without variables
  builds the constant of its value.
-/

namespace SymLift

/-! ## Meanings -/

/-- What a construction means: a truth value, or a bit-vector. -/
inductive Meaning where
  | truth (value : Bool)
  | bits (c : Bits)
  deriving DecidableEq

namespace Meaning

/-- The sort of a meaning. -/
def sort : Meaning → TermSort
  | .truth _ => .bool
  | .bits c => .bitVec c.width

/-- The value that a term of this meaning evaluates to. -/
def value : Meaning → Value
  | .truth b => .bool b
  | .bits c => .word c.value.toNat c.width

theorem exists_of_sort_bool {v : Meaning} (h : v.sort = .bool) : ∃ b, v = .truth b := by
  cases v with
  | truth b => exact ⟨b, rfl⟩
  | bits c => cases h

theorem exists_of_sort_bitVec {v : Meaning} {w : Nat} (h : v.sort = .bitVec w) :
    ∃ x : BitVec w, v = .bits ⟨w, x⟩ := by
  cases v with
  | truth b => cases h
  | bits c =>
    cases h
    exact ⟨c.value, rfl⟩

end Meaning

/-- What the operations of SMT-LIB do where a quotient or a shift has no
natural value. -/
structure FollowsSmtLib (w : Nat) : Prop where
  udiv_zero : ∀ x : BitVec w, BinaryOp.udiv.onBits x 0 = BitVec.allOnes w
  urem_zero : ∀ x : BitVec w, BinaryOp.urem.onBits x 0 = x
  srem_zero : ∀ x : BitVec w, BinaryOp.srem.onBits x 0 = x
  /-- One for a negative dividend, and all ones for any other. -/
  sdiv_zero : ∀ x : BitVec w,
    BinaryOp.sdiv.onBits x 0 = if x.msb then 1 else BitVec.allOnes w
  /-- The quotient of the least word by minus one wraps around. -/
  sdiv_least : BinaryOp.sdiv.onBits (BitVec.intMin w) (-1) = BitVec.intMin w
  shl_past : ∀ x y : BitVec w, w ≤ y.toNat → BinaryOp.shl.onBits x y = 0
  lshr_past : ∀ x y : BitVec w, w ≤ y.toNat → BinaryOp.lshr.onBits x y = 0
  /-- The sign fills every place. -/
  ashr_past : ∀ x y : BitVec w, w ≤ y.toNat →
    BinaryOp.ashr.onBits x y = if x.msb then BitVec.allOnes w else 0

theorem followsSmtLib (w : Nat) : FollowsSmtLib w where
  udiv_zero := fun _ => BitVec.smtUDiv_zero
  urem_zero := fun _ => BitVec.umod_zero
  srem_zero := fun _ => BitVec.srem_zero
  sdiv_zero := by
    intro x
    rw [BinaryOp.onBits, BitVec.ofNat_eq_ofNat, BitVec.smtSDiv_zero, BitVec.slt_zero_eq_msb]
    rfl
  sdiv_least := by
    rcases Nat.eq_zero_or_pos w with rfl | hw
    · rfl
    · have hone : (-1#w) ≠ 0#w := by simpa using hw.ne'
      rw [BinaryOp.onBits]
      exact (Word.smtSDiv_eq_sdiv hone).trans BitVec.intMin_sdiv_neg_one
  shl_past := by
    intro x y hy
    rw [BinaryOp.onBits, BitVec.shiftLeft_eq', BitVec.shiftLeft_eq_zero hy]
    rfl
  lshr_past := by
    intro x y hy
    rw [BinaryOp.onBits, BitVec.ushiftRight_eq', BitVec.ushiftRight_eq_zero hy]
    rfl
  ashr_past := by
    intro x y hy
    rw [BinaryOp.onBits, BitVec.sshiftRight_eq']
    cases hx : x.msb with
    | true =>
      rw [BitVec.sshiftRight_eq_of_msb_true hx, BitVec.ushiftRight_eq_zero hy, BitVec.not_zero]
      rfl
    | false =>
      rw [BitVec.sshiftRight_eq_of_msb_false hx, BitVec.ushiftRight_eq_zero hy]
      rfl

/-! ## Single calls -/

/-- The sort that a call of one operand takes, and the sort that it gives. -/
inductive UnaryCall.Takes : UnaryCall → TermSort → TermSort → Prop where
  | bits {w : Nat} (op : UnaryOp) : Takes (.bits op) (.bitVec w) (.bitVec w)
  | boolNot : Takes .boolNot .bool .bool
  | extract {hi lo w : Nat} (le : lo ≤ hi) (lt : hi < w) :
      Takes (.extract hi lo) (.bitVec w) (.bitVec (hi - lo + 1))
  | zeroExt {count w : Nat} (le : w + count ≤ Word.maxBits) :
      Takes (.zeroExt count) (.bitVec w) (.bitVec (w + count))
  | signExt {count w : Nat} (le : w + count ≤ Word.maxBits) :
      Takes (.signExt count) (.bitVec w) (.bitVec (w + count))
  | resize {v w : Nat} (pos : 0 < v) (le : v ≤ Word.maxBits) :
      Takes (.resize v) (.bitVec w) (.bitVec v)
  | boolToBits {w : Nat} (pos : 0 < w) (le : w ≤ Word.maxBits) :
      Takes (.boolToBits w) .bool (.bitVec w)

/-- The sorts that a call of two operands takes, and the sort that it gives.
The amount of a shift may have any width. -/
inductive BinaryCall.Takes : BinaryCall → TermSort → TermSort → TermSort → Prop where
  | bits {op : BinaryOp} {w : Nat} (h : op.isShift = false) :
      Takes (.bits op) (.bitVec w) (.bitVec w) (.bitVec w)
  | shift {op : BinaryOp} {w v : Nat} (h : op.isShift = true) :
      Takes (.bits op) (.bitVec w) (.bitVec v) (.bitVec w)
  | compare {w : Nat} (op : CompareOp) : Takes (.compare op) (.bitVec w) (.bitVec w) .bool
  | notEqual {w : Nat} : Takes .notEqual (.bitVec w) (.bitVec w) .bool
  | concat {w v : Nat} (le : w + v ≤ Word.maxBits) :
      Takes .concat (.bitVec w) (.bitVec v) (.bitVec (w + v))

/-- The meaning of a call of one operand. -/
def UnaryCall.meaning? (call : UnaryCall) : Meaning → Option Meaning
  | .truth b =>
    match call with
    | .boolNot => some (.truth !b)
    | .boolToBits width => some (.bits ⟨width, BitVec.ofNat width b.toNat⟩)
    | _ => none
  | .bits x =>
    match call with
    | .bits op => some (.bits ⟨x.width, op.onBits x.value⟩)
    | .extract hi lo => some (.bits ⟨hi - lo + 1, x.value.extractLsb' lo (hi - lo + 1)⟩)
    | .zeroExt count => some (.bits ⟨x.width + count, x.value.zeroExtend _⟩)
    | .signExt count => some (.bits ⟨x.width + count, x.value.signExtend _⟩)
    | .resize width => some (.bits ⟨width, x.value.setWidth width⟩)
    | _ => none

/-- The meaning of a call of two operands.  The second operand is written at
the width of the first, which it has except for the amount of a shift. -/
def BinaryCall.meaning? (call : BinaryCall) : Meaning → Meaning → Option Meaning
  | .bits x, .bits y =>
    match call with
    | .bits op =>
      if op.isShift ∨ y.width = x.width then
        some (.bits ⟨x.width, op.onBits x.value (y.value.setWidth x.width)⟩)
      else none
    | .compare op =>
      if y.width = x.width then some (.truth (op.onBits x.value (y.value.setWidth x.width)))
      else none
    | .notEqual =>
      if y.width = x.width then some (.truth (x.value != y.value.setWidth x.width)) else none
    | .concat => some (.bits ⟨x.width + y.width, x.value ++ y.value⟩)
  | _, _ => none

/-- A constructor call gives a term of a sort that has a meaning.  If
`known` holds, the term is a constant. -/
def Realizes (m : Model) (built : Except Fault Term) (meaning : Option Meaning) (s : TermSort)
    (known : Prop) : Prop :=
  ∃ t v, built = .ok t ∧ meaning = some v ∧ v.sort = s ∧ t.HasSort s ∧ t.eval m = .ok v.value ∧
    (known → t.isConstant)

open Term Fold

variable {m : Model} {t u : Term} {w v : Nat} {x : BitVec w} {y : BitVec v} {b : Bool}
  {known known' : Prop} {s s' s'' : TermSort}

theorem Realizes.mono {built : Except Fault Term} {meaning : Option Meaning}
    (h : Realizes m built meaning s known) (himp : known' → known) :
    Realizes m built meaning s known' := by
  obtain ⟨t, v, hbuild, hmeaning, hv, hs, ht, hconst⟩ := h
  exact ⟨t, v, hbuild, hmeaning, hv, hs, ht, fun hk => hconst (himp hk)⟩

theorem realizes_bits (hs : t.HasSort (.bitVec w)) (ht : t.Denotes m x)
    (hc : known → t.constValue?.isSome) :
    Realizes m (.ok t) (some (.bits ⟨w, x⟩)) (.bitVec w) known :=
  ⟨t, _, rfl, rfl, rfl, hs, ht.eval_eq, fun hk => isConstant_of_constValue? (hc hk)⟩

theorem realizes_truth (hs : t.HasSort .bool) (ht : t.Decides m b)
    (hc : known → t.boolValue?.isSome) :
    Realizes m (.ok t) (some (.truth b)) .bool known :=
  ⟨t, _, rfl, rfl, rfl, hs, ht, fun hk => isConstant_of_boolValue? (hc hk)⟩

theorem denotes_of_eval (hs : t.HasSort (.bitVec w)) (h : t.eval m = .ok (.word x.toNat w)) :
    t.Denotes m x :=
  ⟨hs.sort_eq, hs.width_le, h⟩

/-- A call of one operand builds a term of its meaning. -/
theorem realizes_callUnary {call : UnaryCall} {z : Meaning} (hcall : call.Takes s s')
    (hz : z.sort = s) (hs : t.HasSort s) (ht : t.eval m = .ok z.value) :
    Realizes m (Build.callUnary call t) (call.meaning? z) s' t.isConstant := by
  cases hcall with
  | boolNot =>
    obtain ⟨b, rfl⟩ := Meaning.exists_of_sort_bool hz
    rw [Build.callUnary, Build.not_ok hs.isBool]
    exact realizes_truth (hasSort_not hs) (decides_not ht)
      fun hk => isSome_boolValue?_not (hs.isSome_boolValue? hk)
  | boolToBits pos le =>
    obtain ⟨b, rfl⟩ := Meaning.exists_of_sort_bool hz
    have hbuild : ∀ width, 0 < width → width ≤ Word.maxBits →
        Build.boolToBits width t = .ok (Fold.boolToBits width t) := by
      intro width pos le
      rw [Build.boolToBits, Build.lit_ok pos le, Build.lit_ok pos le]
      exact Build.ite_ok hs.isBool rfl
    rw [Build.callUnary, hbuild _ pos le]
    exact realizes_bits (hasSort_boolToBits hs pos le) (denotes_boolToBits ht le)
      fun hk => FoldClosed.constant.boolToBits _ (hs.isSome_boolValue? hk)
  | @bits w op =>
    obtain ⟨x, rfl⟩ := Meaning.exists_of_sort_bitVec hz
    exact realizes_bits (hasSort_unary op hs) (denotes_unary op (denotes_of_eval hs ht))
      fun hk => isSome_constValue?_unary op (hs.isSome_constValue? hk)
  | extract le lt =>
    obtain ⟨x, rfl⟩ := Meaning.exists_of_sort_bitVec hz
    rw [Build.callUnary, Build.extract_ok le (hs.width_eq ▸ lt)]
    exact realizes_bits (hasSort_extract le lt hs) (denotes_extract le lt (denotes_of_eval hs ht))
      fun hk => isSome_constValue?_extract _ _ (hs.isSome_constValue? hk)
  | zeroExt le =>
    obtain ⟨x, rfl⟩ := Meaning.exists_of_sort_bitVec hz
    rw [Build.callUnary, Build.zeroExt_ok (hs.width_eq ▸ le)]
    exact realizes_bits (hasSort_zeroExt hs le) (denotes_zeroExt (denotes_of_eval hs ht) le)
      fun hk => isSome_constValue?_zeroExt _ (hs.isSome_constValue? hk)
  | signExt le =>
    obtain ⟨x, rfl⟩ := Meaning.exists_of_sort_bitVec hz
    rw [Build.callUnary, Build.signExt_ok (hs.width_eq ▸ le)]
    exact realizes_bits (hasSort_signExt hs le) (denotes_signExt (denotes_of_eval hs ht) le)
      fun hk => isSome_constValue?_signExt _ (hs.isSome_constValue? hk)
  | resize pos le =>
    obtain ⟨x, rfl⟩ := Meaning.exists_of_sort_bitVec hz
    rw [Build.callUnary, Build.resize_ok pos le]
    exact realizes_bits (hasSort_resize hs pos le) (denotes_resize (denotes_of_eval hs ht) pos le)
      fun hk => FoldClosed.constant.resize _ (hs.isSome_constValue? hk)

/-- A call of two operands builds a term of its meaning. -/
theorem realizes_callBinary {call : BinaryCall} {z z' : Meaning} (hcall : call.Takes s s' s'')
    (hz : z.sort = s) (hs : t.HasSort s) (ht : t.eval m = .ok z.value)
    (hz' : z'.sort = s') (hs' : u.HasSort s') (hu : u.eval m = .ok z'.value) :
    Realizes m (Build.callBinary call t u) (call.meaning? z z') s''
      (t.isConstant ∧ u.isConstant) := by
  -- Every rule takes two bit-vectors.
  have hwords : ∃ w v, s = .bitVec w ∧ s' = .bitVec v := by
    cases hcall <;> exact ⟨_, _, rfl, rfl⟩
  obtain ⟨w, v, rfl, rfl⟩ := hwords
  obtain ⟨x, rfl⟩ := Meaning.exists_of_sort_bitVec hz
  obtain ⟨y, rfl⟩ := Meaning.exists_of_sort_bitVec hz'
  have hx := denotes_of_eval hs ht
  have hy := denotes_of_eval hs' hu
  have hwidths : v = w → t.width = u.width := fun h => by rw [hs.width_eq, hs'.width_eq, h]
  cases hcall with
  | @bits op _ hop =>
    rw [Build.callBinary, if_neg (by rw [hop]; exact Bool.false_ne_true),
      Build.binary_ok (hwidths rfl), BinaryCall.meaning?]
    dsimp only
    rw [if_pos (Or.inr rfl), BitVec.setWidth_eq]
    exact realizes_bits (hasSort_binary op hs hs') (denotes_binary op hx hy) fun hk =>
      isSome_constValue?_binary op (hs.isSome_constValue? hk.1) (hs'.isSome_constValue? hk.2)
  | @shift op _ _ hop =>
    have hbuild : Build.shift op t u = .ok (Fold.shift op t u) := by
      rw [Build.shift, hs.width_eq, Build.resize_ok hs.width_pos hs.width_le, Fold.shift,
        hs.width_eq]
      exact Build.binary_ok (by rw [hs.width_eq, width_resize hs.width_pos])
    rw [Build.callBinary, if_pos hop, hbuild, BinaryCall.meaning?]
    dsimp only
    rw [if_pos (Or.inl hop)]
    exact realizes_bits (hasSort_shift op hs hs') (denotes_shift op hx hy hs.width_pos) fun hk =>
      FoldClosed.constant.shift op (hs.isSome_constValue? hk.1) (hs'.isSome_constValue? hk.2)
  | compare op =>
    rw [Build.callBinary, Build.compare_ok (hwidths rfl), BinaryCall.meaning?]
    dsimp only
    rw [if_pos rfl, BitVec.setWidth_eq]
    exact realizes_truth (hasSort_compare op hs hs') (decides_compare op hx hy) fun hk =>
      isSome_boolValue?_compare op (hs.isSome_constValue? hk.1) (hs'.isSome_constValue? hk.2)
  | notEqual =>
    have hbuild : Build.notEqual t u = .ok (Fold.notEqual t u) := by
      rw [Build.notEqual, Build.compare_ok (hwidths rfl)]
      exact Build.not_ok (hasSort_compare .eq hs hs').isBool
    rw [Build.callBinary, hbuild, BinaryCall.meaning?]
    dsimp only
    rw [if_pos rfl, BitVec.setWidth_eq]
    refine realizes_truth (hasSort_not (hasSort_compare .eq hs hs')) (decides_notEqual hx hy)
      fun hk => isSome_boolValue?_not (isSome_boolValue?_compare .eq ?_ ?_)
    · exact hs.isSome_constValue? hk.1
    · exact hs'.isSome_constValue? hk.2
  | concat le =>
    rw [Build.callBinary, Build.concat_ok (by rw [hs.width_eq, hs'.width_eq]; exact le)]
    exact realizes_bits (hasSort_concat hs hs' le) (denotes_concat hx hy le) fun hk =>
      isSome_constValue?_concat (hs.isSome_constValue? hk.1) (hs'.isSome_constValue? hk.2)

/-! ## Nested calls -/

namespace Construction

variable {α : Type}

/-- A construction has a sort: its operands are of the sorts that the calls
take, and every width is that of a word. -/
inductive HasSort : Construction α → TermSort → Prop where
  | const {width : Nat} (value : Nat) (pos : 0 < width) (le : width ≤ Word.maxBits) :
      HasSort (.const value width) (.bitVec width)
  | var {width : Nat} (name : String) (pos : 0 < width) (le : width ≤ Word.maxBits) :
      HasSort (.var name width) (.bitVec width)
  | bool (value : Bool) : HasSort (.bool value) .bool
  | unary {call : UnaryCall} {arg : Construction α} {s s' : TermSort} (hcall : call.Takes s s')
      (harg : HasSort arg s) : HasSort (.unary call arg) s'
  | binary {call : BinaryCall} {left right : Construction α} {s s' s'' : TermSort}
      (hcall : call.Takes s s' s'') (hleft : HasSort left s) (hright : HasSort right s') :
      HasSort (.binary call left right) s''
  | conj {args : List (Construction α)} (hargs : ∀ c ∈ args, HasSort c .bool) :
      HasSort (.conj args) .bool
  | disj {args : List (Construction α)} (hargs : ∀ c ∈ args, HasSort c .bool) :
      HasSort (.disj args) .bool
  | ite {cond thenArm elseArm : Construction α} {s : TermSort} (hcond : HasSort cond .bool)
      (hthen : HasSort thenArm s) (helse : HasSort elseArm s) :
      HasSort (.ite cond thenArm elseArm) s

mutual
/-- The names of the variables in a construction. -/
@[simp]
def names : Construction α → List String
  | .leaf _ | .const .. | .bool _ => []
  | .var name _ => [name]
  | .unary _ arg => arg.names
  | .binary _ left right => left.names ++ right.names
  | .conj args | .disj args => namesAll args
  | .ite cond thenArm elseArm => cond.names ++ (thenArm.names ++ elseArm.names)

/-- The names of the variables in a list of constructions. -/
@[simp]
def namesAll : List (Construction α) → List String
  | [] => []
  | c :: cs => c.names ++ namesAll cs
end

theorem mem_namesAll {args : List (Construction α)} {c : Construction α} {name : String}
    (hc : c ∈ args) (h : name ∈ c.names) : name ∈ namesAll args := by
  induction args with
  | nil => cases hc
  | cons first rest ih =>
    rw [namesAll, List.mem_append]
    obtain rfl | hc := List.mem_cons.1 hc
    · exact .inl h
    · exact .inr (ih hc)

mutual
/-- The meaning of a construction under a model.  A variable has the low bits
of its number. -/
def meaning? (m : Model) : Construction α → Option Meaning
  | .leaf _ => none
  | .const value width => some (.bits ⟨width, BitVec.ofNat width value⟩)
  | .var name width => (m name).map fun value => .bits ⟨width, BitVec.ofNat width value⟩
  | .bool value => some (.truth value)
  | .unary call arg => do call.meaning? (← arg.meaning? m)
  | .binary call left right => do call.meaning? (← left.meaning? m) (← right.meaning? m)
  | .conj args => do some (.truth ((← truths? m args).all id))
  | .disj args => do some (.truth ((← truths? m args).any id))
  | .ite cond thenArm elseArm => do
    let whenTrue ← thenArm.meaning? m
    let whenFalse ← elseArm.meaning? m
    match ← cond.meaning? m with
    | .truth b => some (if b then whenTrue else whenFalse)
    | .bits _ => none

/-- The truths that constructions mean. -/
def truths? (m : Model) : List (Construction α) → Option (List Bool)
  | [] => some []
  | c :: cs => do
    match ← c.meaning? m with
    | .truth b => some (b :: (← truths? m cs))
    | .bits _ => none
end

/-! ### Connectives -/

variable {leafTerm : α → Except Fault Term} {args : List (Construction α)} {c : Construction α}

/-- The operands of a connective build terms with the truths that they mean. -/
theorem exists_buildAll
    (h : ∀ c ∈ args, Realizes m (c.build leafTerm) (c.meaning? m) .bool (c.names = [])) :
    ∃ terms truths, buildAll leafTerm args = .ok terms ∧ truths? m args = some truths ∧
      List.Forall₂ (Decides m) terms truths ∧ (∀ t ∈ terms, t.HasSort .bool) ∧
      (namesAll args = [] → ∀ t ∈ terms, t.boolValue?.isSome) := by
  induction args with
  | nil => exact ⟨[], [], rfl, rfl, .nil, by simp, by simp⟩
  | cons c cs ih =>
    obtain ⟨hc, hcs⟩ := List.forall_mem_cons.1 h
    obtain ⟨t, z, hbuild, hmeaning, hz, hs, ht, hconst⟩ := hc
    obtain ⟨b, rfl⟩ := Meaning.exists_of_sort_bool hz
    obtain ⟨terms, truths, hbuilds, hmeanings, hvalues, hsorts, hconsts⟩ := ih hcs
    refine ⟨t :: terms, b :: truths, ?_, ?_, .cons ht hvalues,
      List.forall_mem_cons.2 ⟨hs, hsorts⟩, fun hnames => ?_⟩
    · rw [buildAll, hbuild, hbuilds]
      rfl
    · rw [truths?, hmeaning, hmeanings]
      rfl
    · rw [namesAll, List.append_eq_nil_iff] at hnames
      exact List.forall_mem_cons.2
        ⟨hs.isSome_boolValue? (hconst hnames.1), hconsts hnames.2⟩

/-- A connective joins the truths of its terms. -/
theorem decides_connect_truths {neutral : Bool} {node : List Term → Term} {terms : List Term}
    {truths : List Bool} (hnode : Connects neutral node)
    (h : List.Forall₂ (Decides m) terms truths) :
    (connect neutral node terms).Decides m
      (if truths.all (· == neutral) then neutral else !neutral) := by
  have hterms : ∀ t ∈ terms, ∃ b, t.Decides m b := by
    induction h with
    | nil => simp
    | cons hhead _ ih => exact List.forall_mem_cons.2 ⟨⟨_, hhead⟩, ih⟩
  refine decides_connect hnode hterms ?_
  rw [← all_truths_iff neutral h]
  cases truths.all (· == neutral) <;> cases neutral <;> simp

theorem realizes_conj
    (h : ∀ c ∈ args, Realizes m (c.build leafTerm) (c.meaning? m) .bool (c.names = [])) :
    Realizes m ((conj args).build leafTerm) ((conj args).meaning? m) .bool
      ((conj args).names = []) := by
  obtain ⟨terms, truths, hbuild, hmeaning, hvalues, hsorts, hconst⟩ := exists_buildAll h
  have hall : truths.all id = if truths.all (· == true) then true else !true := by
    cases h : truths.all id <;> simp_all
  rw [build, hbuild, meaning?, hmeaning]
  change Realizes m (Build.conj terms) (some (.truth (truths.all id))) .bool _
  rw [Build.conj_ok fun t ht => (hsorts t ht).isBool, hall]
  exact realizes_truth (hasSort_conj hsorts) (decides_connect_truths connects_conj hvalues)
    fun hnames => isSome_boolValue?_connect _ _ (hconst hnames)

theorem realizes_disj
    (h : ∀ c ∈ args, Realizes m (c.build leafTerm) (c.meaning? m) .bool (c.names = [])) :
    Realizes m ((disj args).build leafTerm) ((disj args).meaning? m) .bool
      ((disj args).names = []) := by
  obtain ⟨terms, truths, hbuild, hmeaning, hvalues, hsorts, hconst⟩ := exists_buildAll h
  have hany : truths.any id = if truths.all (· == false) then false else !false := by
    cases h : truths.any id <;> simp_all
  rw [build, hbuild, meaning?, hmeaning]
  change Realizes m (Build.disj terms) (some (.truth (truths.any id))) .bool _
  rw [Build.disj_ok fun t ht => (hsorts t ht).isBool, hany]
  exact realizes_truth (hasSort_disj hsorts) (decides_connect_truths connects_disj hvalues)
    fun hnames => isSome_boolValue?_connect _ _ (hconst hnames)

/-! ### If-then-else -/

theorem realizes_ite {cond thenArm elseArm : Construction α} {known₁ known₂ known₃ : Prop}
    (hcond : Realizes m (cond.build leafTerm) (cond.meaning? m) .bool known₁)
    (hthen : Realizes m (thenArm.build leafTerm) (thenArm.meaning? m) s known₂)
    (helse : Realizes m (elseArm.build leafTerm) (elseArm.meaning? m) s known₃) :
    Realizes m ((ite cond thenArm elseArm).build leafTerm)
      ((ite cond thenArm elseArm).meaning? m) s (known₁ ∧ known₂ ∧ known₃) := by
  obtain ⟨t, z, hbuild, hmeaning, hz, hs, ht, hconst⟩ := hcond
  obtain ⟨b, rfl⟩ := Meaning.exists_of_sort_bool hz
  obtain ⟨t₁, z₁, hbuild₁, hmeaning₁, hz₁, hs₁, ht₁, hconst₁⟩ := hthen
  obtain ⟨t₂, z₂, hbuild₂, hmeaning₂, hz₂, hs₂, ht₂, hconst₂⟩ := helse
  rw [build, hbuild, hbuild₁, hbuild₂, meaning?, hmeaning, hmeaning₁, hmeaning₂]
  change Realizes m (Build.ite t t₁ t₂) (some (if b then z₁ else z₂)) s _
  rw [Build.ite_ok hs.isBool (hs₁.sort_eq.trans hs₂.sort_eq.symm)]
  refine ⟨_, _, rfl, rfl, ?_, hasSort_ite hs hs₁ hs₂, ?_, fun hk => ?_⟩
  · cases b with
    | true => exact hz₁
    | false => exact hz₂
  · rw [Fold.eval_ite ht, ht₁, ht₂]
    cases b <;> rfl
  · exact ite_of_boolValue? (P := fun t => t.isConstant) (hs.isSome_boolValue? (hconst hk.1))
      (hconst₁ hk.2.1) (hconst₂ hk.2.2)

/-! ### The induction -/

/-- A construction that has a sort builds a term that has its meaning. -/
theorem HasSort.realizes (h : c.HasSort s)
    (hm : ∀ name ∈ c.names, ∃ value, m name = some value) :
    Realizes m (c.build leafTerm) (c.meaning? m) s (c.names = []) := by
  induction h with
  | const value pos le =>
    rw [build, Build.lit_ok pos le]
    exact realizes_bits (hasSort_lit pos le) (denotes_lit value le) fun _ => rfl
  | @var width name pos le =>
    obtain ⟨value, hvalue⟩ := hm name (List.mem_singleton_self name)
    rw [build, Build.var_ok pos le, meaning?, hvalue]
    exact realizes_bits (.var name pos le) (.var le hvalue) fun hk => by cases hk
  | bool value => exact realizes_truth (.bool value) (decides_bool value) fun _ => rfl
  | unary hcall _ ih =>
    obtain ⟨t, z, hbuild, hmeaning, hz, hs, ht, hconst⟩ := ih hm
    have hcalled := realizes_callUnary hcall hz hs ht
    rw [build, hbuild, meaning?, hmeaning]
    exact hcalled.mono hconst
  | binary hcall _ _ ihleft ihright =>
    obtain ⟨t, z, hbuild, hmeaning, hz, hs, ht, hconst⟩ :=
      ihleft fun name h => hm name (List.mem_append_left _ h)
    obtain ⟨t', z', hbuild', hmeaning', hz', hs', ht', hconst'⟩ :=
      ihright fun name h => hm name (List.mem_append_right _ h)
    have hcalled := realizes_callBinary hcall hz hs ht hz' hs' ht'
    rw [build, hbuild, hbuild', meaning?, hmeaning, hmeaning']
    exact hcalled.mono fun hnames =>
      (List.append_eq_nil_iff.1 hnames).imp hconst hconst'
  | conj _ ih => exact realizes_conj fun c hc => ih c hc fun name h => hm name (mem_namesAll hc h)
  | disj _ ih => exact realizes_disj fun c hc => ih c hc fun name h => hm name (mem_namesAll hc h)
  | ite _ _ _ ihcond ihthen ihelse =>
    refine (realizes_ite (ihcond fun name h => hm name ?_) (ihthen fun name h => hm name ?_)
      (ihelse fun name h => hm name ?_)).mono fun hnames => ?_
    · exact List.mem_append_left _ h
    · exact List.mem_append_right _ (List.mem_append_left _ h)
    · exact List.mem_append_right _ (List.mem_append_right _ h)
    · rw [names, List.append_eq_nil_iff, List.append_eq_nil_iff] at hnames
      exact hnames

/-- The constructors and the evaluator implement SMT-LIB.  A construction
that has a sort builds a term of that sort, and under every model of its
variables the term evaluates to what the construction means.  Without
variables the term is the constant of its value. -/
theorem build_has_meaning (leafTerm : α → Except Fault Term) (h : c.HasSort s)
    (hm : ∀ name ∈ c.names, ∃ value, m name = some value) :
    (∃ t v, c.build leafTerm = .ok t ∧ t.sort = s ∧ c.meaning? m = some v ∧ v.sort = s ∧
      t.eval m = .ok v.value ∧ (c.names = [] → t = v.value.toTerm)) ∧
    ∀ width, FollowsSmtLib width := by
  have hbuilt : Realizes m (c.build leafTerm) (c.meaning? m) s (c.names = []) := h.realizes hm
  obtain ⟨t, v, hbuild, hmeaning, hv, hs, ht, hconst⟩ := hbuilt
  refine ⟨⟨t, v, hbuild, hs.sort_eq, hmeaning, hv, ht, fun hnames => ?_⟩, followsSmtLib⟩
  cases v with
  | truth b =>
    cases hv
    exact Decides.eq_bool ht (hs.isSome_boolValue? (hconst hnames))
  | bits z =>
    cases hv
    exact (denotes_of_eval hs ht).eq_const (hs.isSome_constValue? (hconst hnames))

/-- The least word over minus one is negative at the full width of a word, so
a byte is shifted past its width by an amount of another width. -/
def leastQuotient : Construction Unit :=
  .ite
    (.binary (.compare .slt)
      (.binary (.bits .sdiv) (.const (2 ^ 127) 128) (.const (2 ^ 128 - 1) 128)) (.const 0 128))
    (.binary (.bits .shl) (.var "x" 8) (.const 9 16))
    (.unary (.resize 8) (.const 7 64))

theorem hasSort_leastQuotient : leastQuotient.HasSort (.bitVec 8) := by
  have hquotient : HasSort (.binary (.bits .sdiv) (.const (2 ^ 127) 128)
      (.const (2 ^ 128 - 1) 128) : Construction Unit) (.bitVec 128) :=
    .binary (.bits rfl) (.const _ (by decide) (by decide)) (.const _ (by decide) (by decide))
  have hshifted : HasSort (.binary (.bits .shl) (.var "x" 8) (.const 9 16) : Construction Unit)
      (.bitVec 8) :=
    .binary (.shift rfl) (.var "x" (by decide) (by decide)) (.const _ (by decide) (by decide))
  exact .ite (.binary (.compare .slt) hquotient (.const _ (by decide) (by decide))) hshifted
    (.unary (.resize (by decide) (by decide)) (.const _ (by decide) (by decide)))

theorem build_has_meaning_leastQuotient :
    (∃ t v, leastQuotient.build (fun _ => .ok (.bool false)) = .ok t ∧ t.sort = .bitVec 8 ∧
      leastQuotient.meaning? (fun _ => some 3) = some v ∧ v.sort = .bitVec 8 ∧
      t.eval (fun _ => some 3) = .ok v.value ∧
      (leastQuotient.names = [] → t = v.value.toTerm)) ∧
    (∀ width, FollowsSmtLib width) ∧
    leastQuotient.meaning? (fun _ => some 3) = some (.bits ⟨8, 0⟩) :=
  have h := build_has_meaning (m := fun _ => some 3) (fun _ => .ok (.bool false))
    hasSort_leastQuotient fun _ _ => ⟨3, rfl⟩
  ⟨h.1, h.2, by rfl⟩

end Construction

end SymLift
