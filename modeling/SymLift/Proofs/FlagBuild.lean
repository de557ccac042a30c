import SymLift.Flags.Build
import SymLift.Proofs.Denotation

/-!
# Flag helpers never leave the domain of a constructor

The helpers are built with checked constructors, and no check fails: the
arguments were cut or extended to one word, and then every operand has the
width that it is due, whatever the arguments were.

* `FlagBits.oneBit_ofThunk`: a flag has one bit.
* `bit_ok` to `callWords_eq` say of each function of `FlagBuild` that it gives
  the term of the folding function of its name.
* `Helper.call_eq`: so a call gives what `Helper.callWords` says.
-/

namespace SymLift

open Fold

/-! ## Widths -/

namespace Guest

variable {g : Guest} {op n : Nat}

/-- Every modeled operation works on at least a byte and at most a word. -/
theorem dataWidth_bounds {thunkOp : ThunkOp} (h : g.decodeThunk? op = some (thunkOp, n)) :
    8 ≤ n ∧ n ≤ g.wordBits := by
  have hwidths : ∀ width ∈ g.dataWidths, 8 ≤ width ∧ width ≤ g.wordBits := by
    cases g <;> decide
  cases op with
  | zero =>
    obtain rfl := congrArg Prod.snd (Option.some.inj h)
    cases g <;> decide
  | succ index =>
    unfold decodeThunk? at h
    obtain ⟨group, -, h⟩ := Option.bind_eq_some_iff.1 h
    obtain ⟨width, hwidth, h⟩ := Option.bind_eq_some_iff.1 h
    obtain rfl := congrArg Prod.snd (Option.some.inj h)
    exact hwidths width (List.mem_of_getElem? hwidth)

/-- The operation of a number and its width.  A number that is not modeled
has `copy` on a word. -/
def thunkAt (g : Guest) (op : Nat) : ThunkOp × Nat := (g.decodeThunk? op).getD (.copy, g.wordBits)

theorem thunkAt_bounds (g : Guest) (op : Nat) :
    8 ≤ (g.thunkAt op).2 ∧ (g.thunkAt op).2 ≤ g.wordBits := by
  unfold thunkAt
  cases hdecode : g.decodeThunk? op with
  | none => cases g <;> decide
  | some decoded => exact dataWidth_bounds hdecode

theorem atThunkOp_eq (f : ThunkOp → Nat → Term) (op : Nat) :
    g.atThunkOp f op = f (g.thunkAt op).1 (g.thunkAt op).2 := by
  rw [atThunkOp, thunkAt]
  cases g.decodeThunk? op <;> rfl

end Guest

theorem Helper.wordBits_bounds (g : Guest) : 12 ≤ g.wordBits ∧ g.wordBits ≤ 64 := by
  cases g <;> decide

namespace FlagBits

variable {arg cond : Term}

theorem width_bit (place : Nat) : (bit arg place).width = 1 := by
  rw [bit, width_extract, Nat.sub_self]

theorem width_truthBit : (truthBit cond).width = 1 := by
  have harms : (lit 1 1).sort = (lit 0 1).sort := rfl
  rw [truthBit, boolToBits, Term.width, sort_ite harms]
  rfl

theorem width_parityFlag : (parityFlag arg).width = 1 := by
  simp only [parityFlag, List.range', List.foldl_cons, List.foldl_nil, width_unary, width_binary,
    width_bit]

/-- Every flag has one bit. -/
structure OneBit (f : FlagBits) : Prop where
  carry : f.carry.width = 1
  parity : f.parity.width = 1
  adjust : f.adjust.width = 1
  zero : f.zero.width = 1
  sign : f.sign.width = 1
  overflow : f.overflow.width = 1

theorem oneBit_ofThunk (op : ThunkOp) (n : Nat) (dep1 dep2 ndep : Term) :
    (ofThunk op n dep1 dep2 ndep).OneBit := by
  have hzero : (lit 0 1).width = 1 := rfl
  cases op <;> constructor <;>
    simp only [ofThunk, ofOutcome, addOutcome, subOutcome, adcOutcome, sbbOutcome, stepOutcome,
      shiftOutcome, topBit, zeroFlag, adjustFlag, sumOverflow, differenceOverflow, width_bit,
      width_truthBit, width_parityFlag, hzero]

variable {f : FlagBits}

theorem OneBit.width_conditionBit (h : f.OneBit) (code : Nat) :
    (f.conditionBit code).width = 1 := by
  unfold conditionBit
  split <;> split <;>
    simp only [width_unary, width_binary, h.overflow, h.carry, h.zero, h.sign, h.parity]

end FlagBits

namespace FlagBuild

variable {arg result left right masked oldCarry cond : Term} {w n place : Nat}

/-! ## Single flags -/

theorem topPlace_ok (pos : 0 < w) : IR.Op.topPlace w = .ok (w - 1) :=
  if_neg (Nat.pos_iff_ne_zero.1 pos)

theorem bit_ok (h : place < arg.width) : bit arg place = .ok (FlagBits.bit arg place) :=
  Build.extract_ok (Nat.le_refl place) h

theorem topBit_ok (pos : 0 < arg.width) : topBit arg = .ok (FlagBits.topBit arg) := by
  rw [topBit, topPlace_ok pos, ok_bind, bit_ok (by omega), FlagBits.topBit]

theorem truthBit_ok (h : cond.sort = .bool) : truthBit cond = .ok (FlagBits.truthBit cond) := by
  have harms : (lit 1 1).sort = (lit 0 1).sort := rfl
  exact Build.ite_ok (Term.isBool_of_sort h) harms

theorem zeroFlag_ok (pos : 0 < arg.width) (le : arg.width ≤ Word.maxBits) :
    zeroFlag arg = .ok (FlagBits.zeroFlag arg) := by
  have hzero : arg.width = (lit 0 arg.width).width := rfl
  rw [zeroFlag, Build.lit_ok pos le, ok_bind, Build.compare_ok hzero, ok_bind,
    truthBit_ok (sort_compare _), FlagBits.zeroFlag]

theorem parityFlag_ok (h : 8 ≤ arg.width) : parityFlag arg = .ok (FlagBits.parityFlag arg) := by
  simp (disch := omega) only [parityFlag, List.range', List.foldlM_cons, List.foldlM_nil, bit_ok,
    ok_bind]
  simp [Build.binary_ok, width_binary, FlagBits.width_bit, ok_bind, FlagBits.parityFlag,
    List.range']

section

variable (hl : left.width = result.width) (hr : right.width = result.width)

include hl hr

theorem adjustFlag_ok (h : 4 < result.width) :
    adjustFlag result left right = .ok (FlagBits.adjustFlag result left right) := by
  have hfirst : (binary .xor result left).width = result.width := width_binary _
  rw [adjustFlag, Build.binary_ok hl.symm, ok_bind, Build.binary_ok (hfirst.trans hr.symm), ok_bind,
    bit_ok (by rwa [width_binary, hfirst]), FlagBits.adjustFlag]

theorem sumOverflow_ok (pos : 0 < result.width) :
    sumOverflow result left right = .ok (FlagBits.sumOverflow result left right) := by
  have hsame : (unary .complement (binary .xor left right)).width =
      (binary .xor left result).width := by
    rw [width_unary, width_binary, width_binary]
  rw [sumOverflow, Build.binary_ok (hl.trans hr.symm), ok_bind, Build.binary_ok hl, ok_bind,
    Build.binary_ok hsame, ok_bind,
    topBit_ok (by rwa [width_binary, width_unary, width_binary, hl]),
    FlagBits.sumOverflow]

theorem differenceOverflow_ok (pos : 0 < result.width) :
    differenceOverflow result left right =
      .ok (FlagBits.differenceOverflow result left right) := by
  have hsame : (binary .xor left right).width = (binary .xor left result).width := by
    rw [width_binary, width_binary]
  rw [differenceOverflow, Build.binary_ok (hl.trans hr.symm), ok_bind, Build.binary_ok hl, ok_bind,
    Build.binary_ok hsame, ok_bind, topBit_ok (by rwa [width_binary, width_binary, hl]),
    FlagBits.differenceOverflow]

end

/-! ## Operations -/

theorem ofOutcome_ok {r : Except Fault FlagBits.Outcome} {o : FlagBits.Outcome} (hr : r = .ok o)
    (hw : o.result.width = n) (h : 8 ≤ n) (le : n ≤ Word.maxBits) :
    r >>= ofOutcome = .ok (FlagBits.ofOutcome o) := by
  rw [hr, ok_bind, ofOutcome, parityFlag_ok (by omega), zeroFlag_ok (by omega) (by omega),
    topBit_ok (by omega)]
  rfl

section

variable (hl : left.width = n) (hr : right.width = n) (h : 8 ≤ n)

include hl hr h

theorem addOutcome_ok : addOutcome left right = .ok (FlagBits.addOutcome left right) := by
  have hresult : (binary .add left right).width = n := by rw [width_binary, hl]
  rw [addOutcome, Build.binary_ok (hl.trans hr.symm), ok_bind,
    Build.compare_ok (hresult.trans hl.symm), ok_bind, truthBit_ok (sort_compare _),
    adjustFlag_ok (hl.trans hresult.symm) (hr.trans hresult.symm) (by omega),
    sumOverflow_ok (hl.trans hresult.symm) (hr.trans hresult.symm) (by omega)]
  rfl

theorem subOutcome_ok : subOutcome left right = .ok (FlagBits.subOutcome left right) := by
  have hresult : (binary .sub left right).width = n := by rw [width_binary, hl]
  rw [subOutcome, Build.binary_ok (hl.trans hr.symm), ok_bind,
    Build.compare_ok (hl.trans hr.symm), ok_bind, truthBit_ok (sort_compare _),
    adjustFlag_ok (hl.trans hresult.symm) (hr.trans hresult.symm) (by omega),
    differenceOverflow_ok (hl.trans hresult.symm) (hr.trans hresult.symm) (by omega)]
  rfl

theorem stepOutcome_ok (le : n ≤ Word.maxBits) (overflowAt : Nat) :
    stepOutcome n left right oldCarry overflowAt =
      .ok (FlagBits.stepOutcome n left right oldCarry overflowAt) := by
  have hlit (value : Nat) : (lit value n).width = left.width := hl.symm
  rw [stepOutcome, Build.lit_ok (by omega) le, ok_bind,
    adjustFlag_ok (hr.trans hl.symm) (hlit 1) (by omega), ok_bind, Build.lit_ok (by omega) le,
    ok_bind, Build.compare_ok (hlit _).symm, ok_bind, truthBit_ok (sort_compare _)]
  rfl

theorem shiftOutcome_ok (lost : Term) :
    shiftOutcome left right lost = .ok (FlagBits.shiftOutcome left right lost) := by
  rw [shiftOutcome, Build.lit_ok (by decide) (by decide), ok_bind,
    Build.binary_ok (hl.trans hr.symm), ok_bind, topBit_ok (by rw [width_binary, hl]; omega)]
  rfl

end

section

variable (hl : left.width = n) (hm : masked.width = n) (hc : oldCarry.width = 1) (h : 8 ≤ n)

include hl hm hc h

theorem adcOutcome_ok :
    adcOutcome left masked (zeroExt (n - 1) oldCarry) (compare .eq oldCarry (lit 1 1)) =
      .ok (FlagBits.adcOutcome n left masked oldCarry) := by
  have hwide : (zeroExt (n - 1) oldCarry).width = n := by
    rw [width_zeroExt, hc]
    omega
  unfold FlagBits.adcOutcome
  generalize zeroExt (n - 1) oldCarry = wide at hwide
  generalize hright : binary .xor masked wide = right
  generalize hresult : binary .add (binary .add left right) wide = result
  have hrightWidth : right.width = n := by rw [← hright, width_binary, hm]
  have hsum : (binary .add left right).width = n := by rw [width_binary, hl]
  have hresultWidth : result.width = n := by rw [← hresult, width_binary, hsum]
  have hcompare (op : CompareOp) : Build.compare op result left = .ok (compare op result left) :=
    Build.compare_ok (hresultWidth.trans hl.symm)
  have harms : (compare .ule result left).sort = (compare .ult result left).sort := by
    rw [sort_compare, sort_compare]
  rw [adcOutcome, Build.binary_ok (hm.trans hwide.symm), ok_bind, hright,
    Build.binary_ok (hl.trans hrightWidth.symm), ok_bind, Build.binary_ok (hsum.trans hwide.symm),
    ok_bind, hresult, hcompare, ok_bind, hcompare, ok_bind,
    Build.ite_ok (Term.isBool_of_sort (sort_compare _)) harms, ok_bind,
    truthBit_ok (by rw [sort_ite harms, sort_compare]),
    adjustFlag_ok (hl.trans hresultWidth.symm) (hrightWidth.trans hresultWidth.symm) (by omega),
    sumOverflow_ok (hl.trans hresultWidth.symm) (hrightWidth.trans hresultWidth.symm) (by omega)]
  simp only [hright, hresult]
  rfl

theorem sbbOutcome_ok :
    sbbOutcome left masked (zeroExt (n - 1) oldCarry) (compare .eq oldCarry (lit 1 1)) =
      .ok (FlagBits.sbbOutcome n left masked oldCarry) := by
  have hwide : (zeroExt (n - 1) oldCarry).width = n := by
    rw [width_zeroExt, hc]
    omega
  unfold FlagBits.sbbOutcome
  generalize zeroExt (n - 1) oldCarry = wide at hwide
  generalize hright : binary .xor masked wide = right
  generalize hresult : binary .sub (binary .sub left right) wide = result
  have hrightWidth : right.width = n := by rw [← hright, width_binary, hm]
  have hdifference : (binary .sub left right).width = n := by rw [width_binary, hl]
  have hresultWidth : result.width = n := by rw [← hresult, width_binary, hdifference]
  have hcompare (op : CompareOp) : Build.compare op left right = .ok (compare op left right) :=
    Build.compare_ok (hl.trans hrightWidth.symm)
  have harms : (compare .ule left right).sort = (compare .ult left right).sort := by
    rw [sort_compare, sort_compare]
  rw [sbbOutcome, Build.binary_ok (hm.trans hwide.symm), ok_bind, hright,
    Build.binary_ok (hl.trans hrightWidth.symm), ok_bind,
    Build.binary_ok (hdifference.trans hwide.symm), ok_bind, hresult, hcompare, ok_bind, hcompare,
    ok_bind, Build.ite_ok (Term.isBool_of_sort (sort_compare _)) harms, ok_bind,
    truthBit_ok (by rw [sort_ite harms, sort_compare]),
    adjustFlag_ok (hl.trans hresultWidth.symm) (hrightWidth.trans hresultWidth.symm) (by omega),
    differenceOverflow_ok (hl.trans hresultWidth.symm) (hrightWidth.trans hresultWidth.symm)
      (by omega)]
  simp only [hright, hresult]
  rfl

end

/-- An operation on words of at least twelve bits, at a data width from a byte
to a word. -/
theorem ofThunk_ok {dep1 dep2 ndep : Term} (op : ThunkOp) (hn : 8 ≤ n) (le : n ≤ w)
    (hlow : 12 ≤ w) (hhigh : w ≤ Word.maxBits) (h1 : dep1.width = w) (h2 : dep2.width = w)
    (hnd : ndep.width = w) :
    ofThunk op n dep1 dep2 ndep = .ok (FlagBits.ofThunk op n dep1 dep2 ndep) := by
  have hcut {dep : Term} (hdep : dep.width = w) : (extract (n - 1) 0 dep).width = n := by
    rw [width_extract]
    omega
  have hl := hcut h1
  have hr := hcut h2
  have hcarry : (FlagBits.bit ndep FlagBits.carryPlace).width = 1 := FlagBits.width_bit _
  by_cases hcopy : op = .copy
  · subst hcopy
    have hplace : ∀ place < 12, bit dep1 place = .ok (FlagBits.bit dep1 place) :=
      fun place hplace => bit_ok (by omega)
    rw [ofThunk, if_pos rfl, hplace _ (by decide), hplace _ (by decide), hplace _ (by decide),
      hplace _ (by decide), hplace _ (by decide), hplace _ (by decide)]
    rfl
  · have hone : (FlagBits.bit ndep FlagBits.carryPlace).width = (lit 1 1).width := hcarry
    rw [ofThunk, if_neg hcopy, topPlace_ok (by omega), ok_bind,
      Build.extract_ok (Nat.zero_le _) (by omega), ok_bind,
      Build.extract_ok (Nat.zero_le _) (by omega), ok_bind,
      bit_ok (by rw [hnd, FlagBits.carryPlace]; omega), ok_bind,
      Build.zeroExt_ok (by rw [hcarry]; omega), ok_bind, Build.lit_ok (by decide) (by decide),
      ok_bind, Build.compare_ok hone, ok_bind]
    have hlit : Build.lit 1 n = .ok (lit 1 n) := Build.lit_ok (by omega) (by omega)
    have hbit : bit (extract (n - 1) 0 dep2) 0 = .ok (FlagBits.bit (extract (n - 1) 0 dep2) 0) :=
      bit_ok (by omega)
    have hstep (op : BinaryOp) : Build.binary op (extract (n - 1) 0 dep1) (lit 1 n) =
        .ok (binary op (extract (n - 1) 0 dep1) (lit 1 n)) := Build.binary_ok hl
    have hstepWidth (op : BinaryOp) : (binary op (extract (n - 1) 0 dep1) (lit 1 n)).width = n := by
      rw [width_binary, hl]
    have hbits : n ≤ Word.maxBits := le.trans hhigh
    cases op with
    | copy => exact absurd rfl hcopy
    | add =>
      refine ofOutcome_ok (addOutcome_ok hl hr hn) ?_ hn hbits
      simp only [FlagBits.addOutcome, width_binary, hl]
    | sub =>
      refine ofOutcome_ok (subOutcome_ok hl hr hn) ?_ hn hbits
      simp only [FlagBits.subOutcome, width_binary, hl]
    | adc =>
      refine ofOutcome_ok (adcOutcome_ok hl hr hcarry hn) ?_ hn hbits
      simp only [FlagBits.adcOutcome, width_binary, hl]
    | sbb =>
      refine ofOutcome_ok (sbbOutcome_ok hl hr hcarry hn) ?_ hn hbits
      simp only [FlagBits.sbbOutcome, width_binary, hl]
    | logic => exact ofOutcome_ok rfl hl hn hbits
    | inc =>
      rw [outcome, hlit, ok_bind, hstep, ok_bind]
      exact ofOutcome_ok (stepOutcome_ok hl (hstepWidth _) hn hbits _) hl hn hbits
    | dec =>
      rw [outcome, hlit, ok_bind, hstep, ok_bind]
      exact ofOutcome_ok (stepOutcome_ok hl (hstepWidth _) hn hbits _) hl hn hbits
    | shl =>
      rw [outcome, topBit_ok (by omega), ok_bind]
      exact ofOutcome_ok (shiftOutcome_ok hl hr hn _) hl hn hbits
    | shr =>
      rw [outcome, hbit, ok_bind]
      exact ofOutcome_ok (shiftOutcome_ok hl hr hn _) hl hn hbits

/-! ## What is read off the flags -/

theorem placed_ok {flag : Term} (hf : flag.width = 1) (pos : 0 < w) (le : w ≤ Word.maxBits)
    (place : Nat) : placed w flag place = .ok (FlagBits.placed w flag place) := by
  have hwide : (zeroExt (w - 1) flag).width = w := by
    rw [width_zeroExt, hf]
    omega
  have hlit : (zeroExt (w - 1) flag).width = (lit place w).width := hwide
  have hamount : (lit place w).width = w := rfl
  rw [placed, topPlace_ok pos, ok_bind, Build.zeroExt_ok (by omega), ok_bind, Build.lit_ok pos le,
    ok_bind, Build.shift, hwide, Build.resize, if_pos hamount, ok_bind, Build.binary_ok hlit]
  rw [FlagBits.placed, Fold.shift, hwide, Fold.resize, if_pos hamount]

theorem width_placed {flag : Term} (hf : flag.width = 1) (pos : 0 < w) (place : Nat) :
    (FlagBits.placed w flag place).width = w := by
  rw [FlagBits.placed, Fold.shift, width_binary, width_zeroExt, hf]
  omega

variable {f : FlagBits}

theorem pack_ok (h : f.OneBit) (pos : 0 < w) (le : w ≤ Word.maxBits) :
    pack f w = .ok (f.pack w) := by
  have hor {flags : Term} (hflags : flags.width = w) {flag : Term} (hf : flag.width = 1)
      (place : Nat) : Build.binary .or flags (FlagBits.placed w flag place) =
        .ok (binary .or flags (FlagBits.placed w flag place)) :=
    Build.binary_ok (hflags.trans (width_placed hf pos place).symm)
  have hwidth := width_placed h.carry pos FlagBits.carryPlace
  rw [pack, placed_ok h.carry pos le, ok_bind, placed_ok h.parity pos le, ok_bind,
    placed_ok h.adjust pos le, ok_bind, placed_ok h.zero pos le, ok_bind, placed_ok h.sign pos le,
    ok_bind, placed_ok h.overflow pos le, ok_bind, hor hwidth h.parity, ok_bind,
    hor (by rw [width_binary, hwidth]) h.adjust, ok_bind,
    hor (by rw [width_binary, width_binary, hwidth]) h.zero, ok_bind,
    hor (by rw [width_binary, width_binary, width_binary, hwidth]) h.sign, ok_bind,
    hor (by rw [width_binary, width_binary, width_binary, width_binary, hwidth]) h.overflow]
  rfl

theorem width_pack (h : f.OneBit) (pos : 0 < w) : (f.pack w).width = w := by
  simp only [FlagBits.pack, width_binary, width_placed h.carry pos]

theorem conditionBit_ok (h : f.OneBit) (code : Nat) :
    conditionBit f code = .ok (f.conditionBit code) := by
  have hbelow : Build.binary .or f.carry f.zero = .ok (binary .or f.carry f.zero) :=
    Build.binary_ok (h.carry.trans h.zero.symm)
  have hless : Build.binary .xor f.sign f.overflow = .ok (binary .xor f.sign f.overflow) :=
    Build.binary_ok (h.sign.trans h.overflow.symm)
  have hnotAbove : Build.binary .or (binary .xor f.sign f.overflow) f.zero =
      .ok (binary .or (binary .xor f.sign f.overflow) f.zero) :=
    Build.binary_ok (by rw [width_binary, h.sign, h.zero])
  have hplace : code / 2 % 8 < 8 := Nat.mod_lt _ (by decide)
  unfold conditionBit FlagBits.conditionBit
  generalize code / 2 % 8 = place at hplace
  interval_cases place <;> simp only [hbelow, hless, hnotAbove, ok_bind]

/-- A choice among numbered arms.  The last test decides first. -/
theorem select_ok {test : Nat → Except Fault Term} {tests : Nat → Term}
    {arm : Nat → Except Fault Term} {arms : Nat → Term} {last : Term} {s : TermSort}
    (choices : List Nat)
    (htest : ∀ i ∈ choices, test i = .ok (tests i) ∧ (tests i).sort = .bool)
    (harm : ∀ i ∈ choices, arm i = .ok (arms i) ∧ (arms i).sort = s) (hlast : last.sort = s) :
    choices.foldrM (fun i rest => do Build.ite (← test i) (← arm i) rest) last =
      .ok (choices.foldr (fun i rest => ite (tests i) (arms i) rest) last) ∧
    (choices.foldr (fun i rest => ite (tests i) (arms i) rest) last).sort = s := by
  induction choices with
  | nil => exact ⟨rfl, hlast⟩
  | cons i choices ih =>
    obtain ⟨htesti, htests⟩ := List.forall_mem_cons.1 htest
    obtain ⟨harmi, harms⟩ := List.forall_mem_cons.1 harm
    obtain ⟨hrest, hsort⟩ := ih htests harms
    have hsorts := harmi.2.trans hsort.symm
    rw [List.foldrM_cons, hrest, ok_bind, htesti.1, ok_bind, harmi.1, ok_bind,
      Build.ite_ok (Term.isBool_of_sort htesti.2) hsorts]
    exact ⟨rfl, (sort_ite hsorts).trans harmi.2⟩

/-- A term is compared with a constant of its own width. -/
theorem test_ok {t : Term} (pos : 0 < t.width) (le : t.width ≤ Word.maxBits) (op : CompareOp)
    (value : Nat) : (do Build.compare op t (← Build.lit value t.width)) =
      .ok (compare op t (lit value t.width)) := by
  have hlit : t.width = (lit value t.width).width := rfl
  rw [Build.lit_ok pos le, ok_bind, Build.compare_ok hlit]

variable {code ccOp : Term}

theorem condition_ok (h : f.OneBit) (pos : 0 < code.width) (le : code.width ≤ Word.maxBits) :
    condition f code = .ok (f.condition code) ∧ (f.condition code).width = 1 := by
  rw [condition, FlagBits.condition]
  cases code.addressValue? with
  | some value => exact ⟨conditionBit_ok h _, h.width_conditionBit _⟩
  | none =>
    have hsort (i : Nat) := Term.sort_of_width (h.width_conditionBit i) Nat.one_pos
    have hselect := select_ok (List.range 15) (fun i _ => ⟨test_ok pos le .eq i, sort_compare _⟩)
      (fun i _ => ⟨conditionBit_ok h i, hsort i⟩) (hsort 15)
    simp only [bind_assoc] at hselect
    dsimp only
    rw [conditionBit_ok h, ok_bind]
    refine ⟨hselect.1, ?_⟩
    rw [Term.width, hselect.2, TermSort.width]

/-! ## The operation of a thunk -/

section

variable {g : Guest} {build : ThunkOp → Nat → Except Fault Term} {fold : ThunkOp → Nat → Term}
  {s : TermSort}

theorem isThunkOp_ok (pos : 0 < ccOp.width) (le : ccOp.width ≤ Word.maxBits) (op : Nat) :
    isThunkOp ccOp op = .ok (SymLift.isThunkOp ccOp op) :=
  test_ok pos le .eq op

theorem isModeled_ok (pos : 0 < ccOp.width) (le : ccOp.width ≤ Word.maxBits) :
    isModeled g ccOp = .ok (g.isModeled ccOp) := by
  have htests (ops : List Nat) :
      ops.mapM (isThunkOp ccOp) = .ok (ops.map (SymLift.isThunkOp ccOp)) := by
    induction ops with
    | nil => rfl
    | cons op ops ih => rw [List.mapM_cons, isThunkOp_ok pos le, ok_bind, ih]; rfl
  have hbool : ∀ t ∈ SymLift.isThunkOp ccOp 0 ::
      (List.range' 1 (g.modeledOps - 1)).reverse.map (SymLift.isThunkOp ccOp), t.isBool = true := by
    intro t ht
    simp only [List.mem_cons, List.mem_map] at ht
    rcases ht with rfl | ⟨op, -, rfl⟩ <;> exact Term.isBool_of_sort (sort_compare _)
  rw [isModeled, htests, ok_bind, isThunkOp_ok pos le, ok_bind, Build.disj_ok hbool]
  rfl

theorem atThunkOp_eq (op : Nat) :
    atThunkOp g build op = build (g.thunkAt op).1 (g.thunkAt op).2 := by
  rw [atThunkOp, Guest.thunkAt]
  cases g.decodeThunk? op <;> rfl

/-- The data widths of the operations are widths that a helper can work at. -/
theorem atThunkOp_ok
    (h : ∀ op n, 8 ≤ n → n ≤ g.wordBits → build op n = .ok (fold op n) ∧ (fold op n).sort = s)
    (op : Nat) :
    atThunkOp g build op = .ok (g.atThunkOp fold op) ∧ (g.atThunkOp fold op).sort = s := by
  obtain ⟨hn, le⟩ := g.thunkAt_bounds op
  rw [atThunkOp_eq, Guest.atThunkOp_eq]
  exact h _ _ hn le

theorem selectThunkOp_ok (pos : 0 < ccOp.width) (le : ccOp.width ≤ Word.maxBits)
    (h : ∀ op n, 8 ≤ n → n ≤ g.wordBits → build op n = .ok (fold op n) ∧ (fold op n).sort = s) :
    selectThunkOp g ccOp build = .ok (g.selectThunkOp ccOp fold) ∧
      (g.selectThunkOp ccOp fold).sort = s := by
  have hselect := select_ok (List.range' 1 (g.modeledOps - 1))
    (fun op _ => ⟨isThunkOp_ok pos le op, sort_compare _⟩) (fun op _ => atThunkOp_ok h op)
    (atThunkOp_ok h 0).2
  have hlast : build .copy g.wordBits = .ok (fold .copy g.wordBits) := (atThunkOp_ok h 0).1
  rw [selectThunkOp, hlast, ok_bind]
  exact hselect

variable {h : Helper} {value : Term} {needs : List Term}

theorem overThunkOp_eq (hw : ccOp.width = h.guest.wordBits)
    (hf : ∀ op n, 8 ≤ n → n ≤ h.guest.wordBits →
      build op n = .ok (fold op n) ∧ (fold op n).sort = s) :
    overThunkOp h ccOp build = h.overThunkOp ccOp fold ∧
      ∀ {value needs}, h.overThunkOp ccOp fold = .ok (value, needs) → value.sort = s := by
  have pos : 0 < ccOp.width := hw ▸ h.guest.wordBits_pos
  have le : ccOp.width ≤ Word.maxBits := hw ▸ h.guest.wordBits_le
  rw [overThunkOp, Helper.overThunkOp]
  cases ccOp.addressValue? with
  | none =>
    obtain ⟨hselect, hsort⟩ := selectThunkOp_ok pos le hf
    dsimp only
    rw [hselect, isModeled_ok pos le]
    refine ⟨rfl, fun hvalue => ?_⟩
    cases hvalue
    exact hsort
  | some op =>
    have hat := atThunkOp_ok hf op
    rw [atThunkOp, Guest.atThunkOp] at hat
    dsimp only
    cases hdecode : h.guest.decodeThunk? op with
    | none => exact ⟨rfl, nofun⟩
    | some decoded =>
      rw [hdecode] at hat
      dsimp only at hat ⊢
      rw [hat.1]
      refine ⟨rfl, fun hvalue => ?_⟩
      cases hvalue
      exact hat.2

end

/-! ## Calls -/

theorem codeConstraints_ok (pos : 0 < code.width) (le : code.width ≤ Word.maxBits) :
    codeConstraints code = .ok (Helper.codeConstraints code) := by
  rw [codeConstraints, Helper.codeConstraints]
  split
  · rfl
  · have hlit : code.width = (lit 16 code.width).width := rfl
    rw [Build.lit_ok pos le, ok_bind, Build.compare_ok hlit]
    rfl

section

variable {h : Helper} {dep1 dep2 ndep : Term} {fold : FlagBits → Term} {s : TermSort}

/-- What is read off the flags of the operation of a thunk. -/
theorem overFlags_eq (read : FlagBits → Except Fault Term)
    (hop : ccOp.width = h.guest.wordBits) (h1 : dep1.width = h.guest.wordBits)
    (h2 : dep2.width = h.guest.wordBits) (hnd : ndep.width = h.guest.wordBits)
    (hread : ∀ f : FlagBits, f.OneBit → read f = .ok (fold f) ∧ (fold f).sort = s) :
    overThunkOp h ccOp (fun op n => do read (← ofThunk op n dep1 dep2 ndep)) =
        h.overThunkOp ccOp (fun op n => fold (FlagBits.ofThunk op n dep1 dep2 ndep)) ∧
      ∀ {value needs}, h.overThunkOp ccOp
        (fun op n => fold (FlagBits.ofThunk op n dep1 dep2 ndep)) = .ok (value, needs) →
          value.sort = s := by
  obtain ⟨hlow, -⟩ := Helper.wordBits_bounds h.guest
  refine overThunkOp_eq hop fun op n hn le => ?_
  rw [ofThunk_ok op hn le hlow h.guest.wordBits_le h1 h2 hnd, ok_bind]
  exact hread _ (FlagBits.oneBit_ofThunk op n dep1 dep2 ndep)

end

theorem inWord_ok (g : Guest) {flag : Term} (hf : flag.width = 1) :
    inWord g flag = .ok (zeroExt (g.wordBits - 1) flag) ∧
      (zeroExt (g.wordBits - 1) flag).sort = .bitVec g.wordBits := by
  have pos := g.wordBits_pos
  have le := g.wordBits_le
  constructor
  · rw [inWord, topPlace_ok pos, ok_bind, Build.zeroExt_ok (by omega)]
  · refine Term.sort_of_width ?_ pos
    rw [width_zeroExt, hf]
    omega

/-- A helper on words gives the folded terms. -/
theorem callWords_eq {h : Helper} {args : List Term}
    (hargs : ∀ t ∈ args, t.width = h.guest.wordBits) : callWords h args = h.callWords args := by
  have pos := h.guest.wordBits_pos
  have le := h.guest.wordBits_le
  unfold callWords
  split
  · rename_i code ccOp dep1 dep2 ndep hquery
    simp only [List.forall_mem_cons] at hargs
    obtain ⟨hcode, hop, h1, h2, hnd, -⟩ := hargs
    obtain ⟨hover, hsort⟩ := overFlags_eq (condition · code) hop h1 h2 hnd
      fun f hf => (condition_ok hf (hcode ▸ pos) (hcode ▸ le)).imp_right
        (Term.sort_of_width · Nat.one_pos)
    rw [hover, codeConstraints_ok (hcode ▸ pos) (hcode ▸ le)]
    simp only [Helper.callWords, hquery]
    cases hvalue : h.overThunkOp ccOp _ with
    | error cause => rfl
    | ok result =>
      have hflag : result.1.width = 1 := by rw [Term.width, hsort hvalue, TermSort.width]
      rw [ok_bind, ok_bind, fault_ok_bind, (inWord_ok h.guest hflag).1]
      rfl
  · rename_i ccOp dep1 dep2 ndep hquery
    simp only [List.forall_mem_cons] at hargs
    obtain ⟨hop, h1, h2, hnd, -⟩ := hargs
    simp only [Helper.callWords, hquery]
    exact (overFlags_eq (pack · h.guest.wordBits) hop h1 h2 hnd fun f hf =>
      ⟨pack_ok hf pos le, Term.sort_of_width (width_pack hf pos) pos⟩).1
  · rename_i ccOp dep1 dep2 ndep hquery
    simp only [List.forall_mem_cons] at hargs
    obtain ⟨hop, h1, h2, hnd, -⟩ := hargs
    simp only [Helper.callWords, hquery]
    exact (overFlags_eq (fun f => inWord h.guest f.carry) hop h1 h2 hnd fun f hf =>
      inWord_ok h.guest hf.carry).1
  · rename_i hcondition hflags hcarry
    unfold Helper.callWords
    split
    · exact (hcondition _ _ _ _ _ ‹_› rfl).elim
    · exact (hflags _ _ _ _ ‹_› rfl).elim
    · exact (hcarry _ _ _ _ ‹_› rfl).elim
    · rfl

end FlagBuild

/-- Cutting or extending to a width never fails. -/
theorem Build.resizeAll_ok {w : Nat} (pos : 0 < w) (le : w ≤ Word.maxBits) (args : List Term) :
    args.mapM (Build.resize w) = .ok (args.map (Fold.resize w)) := by
  induction args with
  | nil => rfl
  | cons arg args ih =>
    rw [List.mapM_cons, Build.resize_ok pos le, ok_bind, ih]
    rfl

/-- A call gives the folded terms, whatever its arguments are. -/
theorem Helper.call_eq (h : Helper) (args : List Term) :
    h.call args = h.callWords (args.map (Fold.resize h.guest.wordBits)) := by
  rw [call, Build.resizeAll_ok h.guest.wordBits_pos h.guest.wordBits_le, fault_ok_bind,
    FlagBuild.callWords_eq]
  intro t ht
  obtain ⟨arg, -, rfl⟩ := List.mem_map.1 ht
  exact width_resize h.guest.wordBits_pos

end SymLift
