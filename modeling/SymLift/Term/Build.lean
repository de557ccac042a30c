import SymLift.Term.Fold

/-!
# Checked constructors

The functions here check the sorts and widths of their operands and then
fold.  A `Fault` names the check that failed.  Each constructor has a lemma
that says when it succeeds, and that its result is then the folded term.

Widths are counted in 32 bits.  An extension or a concatenation whose width
does not fit is the fault `widthOverflow`.  Constants and variables are
limited to `Word.maxBits` bits, and so is a concatenation.  An extension of
a term that is not constant is not limited.  A unary operation has nothing
to check: `Fold.unary` is its constructor.
-/

namespace SymLift

/-- A constructor or an evaluation was applied outside its domain. -/
inductive Fault where
  /-- A constant or a variable of no bits, or of too many. -/
  | badWidth (width : Nat)
  /-- Operands of two widths. -/
  | widthMismatch (left right : Nat)
  /-- A bit-vector where a boolean is due. -/
  | notBoolean
  /-- The arms of an if-then-else have two sorts. -/
  | sortMismatch
  /-- An extraction of bits that the operand does not have. -/
  | badExtract (hi lo width : Nat)
  /-- A concatenation that is too wide. -/
  | concatTooWide (width : Nat)
  /-- A width that does not fit 32 bits. -/
  | widthOverflow
  /-- A width below zero. -/
  | widthUnderflow
  /-- A shift within the width of its operand, but past the widest word. -/
  | shiftTooFar
  /-- A term that a construction refers to is not there. -/
  | missing
  deriving DecidableEq

namespace Build

/-- Widths are below this bound. -/
def widthLimit : Nat := UInt32.size

/-- A width that fits 32 bits. -/
def checkWidth (width : Nat) : Except Fault Unit :=
  if width < widthLimit then .ok () else .error .widthOverflow

/-! ## Bit-vectors -/

/-- A constant.  Its value is reduced to the width. -/
def lit (value width : Nat) : Except Fault Term :=
  if 0 < width ∧ width ≤ Word.maxBits then .ok (Fold.lit value width)
  else .error (.badWidth width)

/-- A variable. -/
def var (name : String) (width : Nat) : Except Fault Term :=
  if 0 < width ∧ width ≤ Word.maxBits then .ok (.var name width)
  else .error (.badWidth width)

/-- A binary operation on operands of one width. -/
def binary (op : BinaryOp) (left right : Term) : Except Fault Term :=
  if left.width = right.width then .ok (Fold.binary op left right)
  else .error (.widthMismatch left.width right.width)

/-- The bits of `arg` from `hi` down to `lo`. -/
def extract (hi lo : Nat) (arg : Term) : Except Fault Term :=
  if lo ≤ hi ∧ hi < arg.width then .ok (Fold.extract hi lo arg)
  else .error (.badExtract hi lo arg.width)

/-- `high` above `low`. -/
def concat (high low : Term) : Except Fault Term := do
  checkWidth (high.width + low.width)
  if high.width + low.width ≤ Word.maxBits then .ok (Fold.concat high low)
  else .error (.concatTooWide (high.width + low.width))

/-- The width that `count` more bits give `arg`.  A constant is limited to
the widest word. -/
def checkExtension (count : Nat) (arg : Term) : Except Fault Unit := do
  checkWidth (arg.width + count)
  if arg.constValue?.isSome ∧ Word.maxBits < arg.width + count then
    .error (.badWidth (arg.width + count))

/-- `arg` below `count` zero bits. -/
def zeroExt (count : Nat) (arg : Term) : Except Fault Term := do
  checkExtension count arg
  .ok (Fold.zeroExt count arg)

/-- `arg` below `count` copies of its sign. -/
def signExt (count : Nat) (arg : Term) : Except Fault Term := do
  checkExtension count arg
  .ok (Fold.signExt count arg)

/-- `arg` zero-extended or cut to exactly `width` bits. -/
def resize (width : Nat) (arg : Term) : Except Fault Term :=
  if arg.width = width then .ok arg
  else if arg.width < width then zeroExt (width - arg.width) arg
  else if width = 0 then .error .widthUnderflow
  else extract (width - 1) 0 arg

/-- A shift.  The amount is resized to the width of the operand. -/
def shift (op : BinaryOp) (arg amount : Term) : Except Fault Term := do
  binary op arg (← resize arg.width amount)

/-! ## Booleans -/

/-- A comparison of operands of one width. -/
def compare (op : CompareOp) (left right : Term) : Except Fault Term :=
  if left.width = right.width then .ok (Fold.compare op left right)
  else .error (.widthMismatch left.width right.width)

/-- A term that is a boolean. -/
def checkBool (t : Term) : Except Fault Unit :=
  if t.isBool then .ok () else .error .notBoolean

/-- Negation. -/
def not (arg : Term) : Except Fault Term := do
  checkBool arg
  .ok (Fold.not arg)

/-- The terms differ. -/
def notEqual (left right : Term) : Except Fault Term := do
  not (← compare .eq left right)

/-- Every term up to the first that is constantly `deciding` is a boolean.
The terms after it are not looked at. -/
def checkBoolsUpTo (deciding : Bool) : List Term → Except Fault Unit
  | [] => .ok ()
  | t :: ts => do
    checkBool t
    if t.boolValue? = some deciding then .ok () else checkBoolsUpTo deciding ts

/-- Conjunction. -/
def conj (terms : List Term) : Except Fault Term := do
  checkBoolsUpTo false terms
  .ok (Fold.conj terms)

/-- Disjunction. -/
def disj (terms : List Term) : Except Fault Term := do
  checkBoolsUpTo true terms
  .ok (Fold.disj terms)

/-- If-then-else. -/
def ite (cond thenArm elseArm : Term) : Except Fault Term := do
  checkBool cond
  if thenArm.sort = elseArm.sort then .ok (Fold.ite cond thenArm elseArm)
  else .error .sortMismatch

/-- `1` of `width` bits if `cond` holds, and `0` otherwise. -/
def boolToBits (width : Nat) (cond : Term) : Except Fault Term := do
  ite cond (← lit 1 width) (← lit 0 width)

/-! ## When a constructor succeeds -/

theorem lit_ok {value width : Nat} (h0 : 0 < width) (h : width ≤ Word.maxBits) :
    lit value width = .ok (Fold.lit value width) := by
  simp [lit, h0, h]

theorem var_ok {name : String} {width : Nat} (h0 : 0 < width) (h : width ≤ Word.maxBits) :
    var name width = .ok (.var name width) := by
  simp [var, h0, h]

theorem binary_ok {op : BinaryOp} {left right : Term} (h : left.width = right.width) :
    binary op left right = .ok (Fold.binary op left right) := by
  simp [binary, h]

theorem checkWidth_ok {width : Nat} (h : width < widthLimit) : checkWidth width = .ok () := by
  simp [checkWidth, h]

theorem concat_ok {high low : Term} (h : high.width + low.width ≤ Word.maxBits) :
    concat high low = .ok (Fold.concat high low) := by
  have hw : high.width + low.width < widthLimit :=
    Nat.lt_of_le_of_lt h (by decide)
  simp [concat, checkWidth_ok hw, h, bind, Except.bind]

theorem checkExtension_ok {count : Nat} {arg : Term} (h : arg.width + count ≤ Word.maxBits) :
    checkExtension count arg = .ok () := by
  have hw : arg.width + count < widthLimit :=
    Nat.lt_of_le_of_lt h (by decide)
  have hn : ¬ Word.maxBits < arg.width + count := Nat.not_lt.2 h
  simp [checkExtension, checkWidth_ok hw, hn, bind, Except.bind, pure, Except.pure]

theorem zeroExt_ok {count : Nat} {arg : Term} (h : arg.width + count ≤ Word.maxBits) :
    zeroExt count arg = .ok (Fold.zeroExt count arg) := by
  simp [zeroExt, checkExtension_ok h, bind, Except.bind]

theorem signExt_ok {count : Nat} {arg : Term} (h : arg.width + count ≤ Word.maxBits) :
    signExt count arg = .ok (Fold.signExt count arg) := by
  simp [signExt, checkExtension_ok h, bind, Except.bind]

theorem extract_ok {hi lo : Nat} {arg : Term} (h : lo ≤ hi) (hw : hi < arg.width) :
    extract hi lo arg = .ok (Fold.extract hi lo arg) := by
  simp [extract, h, hw]

theorem resize_ok {width : Nat} {arg : Term} (h0 : 0 < width) (h : width ≤ Word.maxBits) :
    resize width arg = .ok (Fold.resize width arg) := by
  unfold resize Fold.resize
  split
  · rfl
  · split
    · rename_i hlt
      exact zeroExt_ok (by omega)
    · rename_i hne hge
      rw [if_neg (by omega)]
      exact extract_ok (Nat.zero_le _) (by omega)

theorem compare_ok {op : CompareOp} {left right : Term} (h : left.width = right.width) :
    compare op left right = .ok (Fold.compare op left right) := by
  simp [compare, h]

theorem not_ok {arg : Term} (h : arg.isBool = true) : not arg = .ok (Fold.not arg) := by
  simp [not, checkBool, h, bind, Except.bind]

theorem checkBoolsUpTo_ok {deciding : Bool} {terms : List Term}
    (h : ∀ t ∈ terms, t.isBool = true) : checkBoolsUpTo deciding terms = .ok () := by
  induction terms with
  | nil => rfl
  | cons t ts ih =>
    have ht : t.isBool = true := h t List.mem_cons_self
    have hts := ih fun u hu => h u (List.mem_cons_of_mem _ hu)
    simp [checkBoolsUpTo, checkBool, ht, hts, bind, Except.bind]

theorem conj_ok {terms : List Term} (h : ∀ t ∈ terms, t.isBool = true) :
    conj terms = .ok (Fold.conj terms) := by
  simp [conj, checkBoolsUpTo_ok h, bind, Except.bind]

theorem disj_ok {terms : List Term} (h : ∀ t ∈ terms, t.isBool = true) :
    disj terms = .ok (Fold.disj terms) := by
  simp [disj, checkBoolsUpTo_ok h, bind, Except.bind]

theorem ite_ok {cond thenArm elseArm : Term} (hc : cond.isBool = true)
    (hs : thenArm.sort = elseArm.sort) :
    ite cond thenArm elseArm = .ok (Fold.ite cond thenArm elseArm) := by
  simp [ite, checkBool, hc, hs, bind, Except.bind]

end Build

end SymLift
