import SymLift.Proofs.Comparisons

/-!
# Flags that are copied

The three helpers read one set of flags off the thunk, each in its own way: the
flags in one word, the carry, and a condition.  The operation `copy` reads the
flags off such a word again, so a thunk can be replaced by its flags.

* `Flags.ofThunk_copy_pack`: flags in a word are read off it again.
* `Guest.flagsAt`: the flags of a thunk.  An operation that is not modeled
  counts as `copy`, as it does in the choice that a helper builds.
* `Helper.exists_call_flags`, `Helper.exists_call_carry` and
  `Helper.exists_call_condition`: a call succeeds unless its operation is a
  constant that is not modeled, and reads the flags of the thunk.
* `Helper.exists_calls_copy`: calls on the thunk that copies.
* `Helper.helpers_agree_through_copy` puts these together.
-/

namespace SymLift

variable {n word : Nat}

/-! ## Flags in a word -/

namespace Flags

/-- Flags in a word are read off it again. -/
theorem ofThunk_copy_pack (hword : 12 ≤ word) (f : Flags) (dep2 ndep : BitVec word) :
    ofThunk .copy n (f.pack word) dep2 ndep = f := by
  have hplaces : ∀ c p a z s o : Bool,
      let packed := c.toNat + 4 * p.toNat + 16 * a.toNat + 64 * z.toNat + 128 * s.toNat +
        2048 * o.toNat
      (⟨packed.testBit 0, packed.testBit 2, packed.testBit 4, packed.testBit 6, packed.testBit 7,
        packed.testBit 11⟩ : Flags) = ⟨c, p, a, z, s, o⟩ := by
    decide
  have hbit : ∀ place < 12, (f.pack word).getLsbD place = (f.carry.toNat + 4 * f.parity.toNat +
      16 * f.adjust.toNat + 64 * f.zero.toNat + 128 * f.sign.toNat +
        2048 * f.overflow.toNat).testBit place := by
    intro place hplace
    rw [pack, BitVec.getLsbD_ofNat, decide_eq_true (by omega), Bool.true_and]
  rw [ofThunk, hbit 0 (by decide), hbit 2 (by decide), hbit 4 (by decide), hbit 6 (by decide),
    hbit 7 (by decide), hbit 11 (by decide)]
  exact hplaces f.carry f.parity f.adjust f.zero f.sign f.overflow

/-- The word of flags has bits set in their places only. -/
theorem mem_places_of_getLsbD_pack (hword : 12 ≤ word) {f : Flags} {place : Nat}
    (h : (f.pack word).getLsbD place = true) : place ∈ [0, 2, 4, 6, 7, 11] := by
  have hmask : f.pack word = f.pack word &&& BitVec.ofNat word 0x8d5 := by
    have hcopy := Helper.pack_copy (n := word) hword (f.pack word) 0 0
    rwa [ofThunk_copy_pack hword] at hcopy
  have hplaces : ∀ place < 12, Nat.testBit 0x8d5 place = true → place ∈ [0, 2, 4, 6, 7, 11] := by
    decide
  rw [hmask, BitVec.getLsbD_and, BitVec.getLsbD_ofNat, Bool.and_eq_true, Bool.and_eq_true] at h
  obtain ⟨-, -, hset⟩ := h
  refine hplaces place (Nat.lt_of_not_le fun hle => ?_) hset
  have hpow : 2 ^ 12 ≤ 2 ^ place := Nat.pow_le_pow_right (by decide) hle
  rw [Nat.testBit_lt_two_pow (by omega)] at hset
  exact Bool.false_ne_true hset

end Flags

/-! ## The flags of a thunk -/

namespace Guest

variable {g : Guest}

/-- The flags of a thunk.  An operation that is not modeled counts as
`copy`. -/
def flagsAt (g : Guest) (ccOp dep1 dep2 ndep : BitVec g.wordBits) : Flags :=
  g.valueAt (fun op n => Flags.ofThunk op n dep1 dep2 ndep) ccOp.toNat

/-- The flags of a thunk that holds flags. -/
theorem flagsAt_pack (f : Flags) (dep2 ndep : BitVec g.wordBits) :
    g.flagsAt (BitVec.ofNat g.wordBits 0) (f.pack g.wordBits) dep2 ndep = f := by
  rw [flagsAt, BitVec.toNat_ofNat, Nat.zero_mod]
  exact Flags.ofThunk_copy_pack (n := g.wordBits) (Helper.wordBits_bounds g).1 f dep2 ndep

/-- A thunk of terms has flags under a model. -/
def ThunkHas (g : Guest) (m : Model) (ccOp dep1 dep2 ndep : Term) (f : Flags) : Prop :=
  ∃ k d1 d2 nd : BitVec g.wordBits, ccOp.Denotes m k ∧ dep1.Denotes m d1 ∧ dep2.Denotes m d2 ∧
    ndep.Denotes m nd ∧ g.flagsAt k d1 d2 nd = f

/-- A thunk of words has flags. -/
theorem exists_thunkHas {m : Model} {ccOp dep1 dep2 ndep : Term}
    (hsorts : ∀ t ∈ [ccOp, dep1, dep2, ndep], t.HasSort (.bitVec g.wordBits)) (hm : m.Total) :
    ∃ f, g.ThunkHas m ccOp dep1 dep2 ndep f := by
  simp only [List.forall_mem_cons] at hsorts
  obtain ⟨hccOp, h1, h2, hndep, -⟩ := hsorts
  obtain ⟨k, hk⟩ := hccOp.exists_denotes hm
  obtain ⟨d1, hd1⟩ := h1.exists_denotes hm
  obtain ⟨d2, hd2⟩ := h2.exists_denotes hm
  obtain ⟨nd, hnd⟩ := hndep.exists_denotes hm
  exact ⟨_, k, d1, d2, nd, hk, hd1, hd2, hnd, rfl⟩

/-- The thunk that copies a word of flags has these flags. -/
theorem thunkHas_copy {m : Model} {given : Term} {f : Flags}
    (hgiven : given.Denotes m (f.pack g.wordBits)) :
    g.ThunkHas m (.const 0 g.wordBits) given (.const 0 g.wordBits) (.const 0 g.wordBits) f := by
  have hzero : (Term.const 0 g.wordBits).Denotes m (BitVec.ofNat g.wordBits 0) :=
    .const g.wordBits_le (Nat.two_pow_pos _)
  exact ⟨_, _, _, _, hzero, hgiven, hzero, hzero, flagsAt_pack f _ _⟩

/-- An operation that is a constant is modeled. -/
def Readable (g : Guest) (ccOp : Term) : Prop :=
  ∀ op, ccOp.addressValue? = some op → (g.decodeThunk? op).isSome

theorem readable_copy (g : Guest) : g.Readable (.const 0 g.wordBits) := by
  intro op hop
  cases hop
  rfl

end Guest

namespace Helper

open Fold Guest

variable {g : Guest} {m : Model} {code ccOp dep1 dep2 ndep value : Term} {needs : List Term}

theorem readable_of_overThunkOp {h : Helper} {f : ThunkOp → Nat → Term}
    (hcall : h.overThunkOp ccOp f = .ok (value, needs)) : h.guest.Readable ccOp := by
  intro op hop
  rw [overThunkOp, hop] at hcall
  dsimp only at hcall
  split at hcall
  · rename_i hdecode
    exact Option.isSome_iff_exists.2 ⟨_, hdecode⟩
  · cases hcall

theorem exists_overThunkOp {h : Helper} (hop : h.guest.Readable ccOp) (f : ThunkOp → Nat → Term) :
    ∃ value needs, h.overThunkOp ccOp f = .ok (value, needs) := by
  unfold overThunkOp
  split
  · rename_i op hconst
    obtain ⟨decoded, hdecode⟩ := Option.isSome_iff_exists.1 (hop op hconst)
    rw [hdecode]
    exact ⟨_, _, rfl⟩
  · exact ⟨_, _, rfl⟩

/-- What is built from the flags of every operation has the value that it has
for the flags of the thunk. -/
theorem denotes_of_thunkHas {v : Nat} {q : FlagQuery} {build : FlagBits → Term}
    (read : Flags → BitVec v) {f : Flags}
    (hbuild : ∀ bits flags, bits.Denotes m flags → (build bits).Denotes m (read flags))
    (hcall : (Helper.mk g q).overThunkOp ccOp
      (fun op n => build (FlagBits.ofThunk op n dep1 dep2 ndep)) = .ok (value, needs))
    (hthunk : g.ThunkHas m ccOp dep1 dep2 ndep f) : value.Denotes m (read f) := by
  obtain ⟨k, d1, d2, nd, hk, h1, h2, hnd, rfl⟩ := hthunk
  have hvalue := denotes_overThunkOp (fun op n hn le => hbuild _ _
    (denotes_thunkFlags (h := .mk g q) h1 h2 hnd op n hn le)) hk hcall
  rwa [valueAt_comp read] at hvalue

/-! ## Calls with a readable operation -/

section Calls

variable (hop : g.Readable ccOp) (hwidths : ∀ t ∈ [ccOp, dep1, dep2, ndep], t.width = g.wordBits)
include hop hwidths

/-- A helper that gives a word read off the flags of the operation. -/
theorem exists_call_reading {q : FlagQuery} {build : FlagBits → Term}
    (read : Flags → BitVec g.wordBits)
    (hwords : (Helper.mk g q).callWords [ccOp, dep1, dep2, ndep] =
      (Helper.mk g q).overThunkOp ccOp fun op n => build (FlagBits.ofThunk op n dep1 dep2 ndep))
    (hbuild : ∀ m bits flags, bits.Denotes m flags → (build bits).Denotes m (read flags)) :
    ∃ value needs, (Helper.mk g q).call [ccOp, dep1, dep2, ndep] = .ok (value, needs) ∧
      ∀ m f, g.ThunkHas m ccOp dep1 dep2 ndep f → value.Denotes m (read f) := by
  obtain ⟨value, needs, hcall⟩ := exists_overThunkOp (h := .mk g q) hop
    fun op n => build (FlagBits.ofThunk op n dep1 dep2 ndep)
  refine ⟨value, needs, ?_, fun m f hthunk => denotes_of_thunkHas read (hbuild m) hcall hthunk⟩
  rw [call_eq, map_resize_eq hwidths, hwords]
  exact hcall

theorem exists_call_flags : ∃ value needs,
    (Helper.mk g .flags).call [ccOp, dep1, dep2, ndep] = .ok (value, needs) ∧
      ∀ m f, g.ThunkHas m ccOp dep1 dep2 ndep f → value.Denotes m (f.pack g.wordBits) :=
  exists_call_reading hop hwidths (·.pack g.wordBits) rfl fun _ _ _ hbits =>
    FlagBits.denotes_pack (wordBits_bounds g).1 g.wordBits_le hbits

theorem exists_call_carry : ∃ value needs,
    (Helper.mk g .carry).call [ccOp, dep1, dep2, ndep] = .ok (value, needs) ∧
      ∀ m f, g.ThunkHas m ccOp dep1 dep2 ndep f →
        value.Denotes m (BitVec.ofNat g.wordBits f.carry.toNat) :=
  exists_call_reading hop hwidths (fun f => BitVec.ofNat g.wordBits f.carry.toNat) rfl
    fun _ _ _ hbits => denotes_truth (h := .mk g .carry) hbits.carry

theorem exists_call_condition (hcode : code.width = g.wordBits) : ∃ value needs,
    (Helper.mk g .condition).call [code, ccOp, dep1, dep2, ndep] = .ok (value, needs) ∧
      ∀ m f, ∀ c : BitVec g.wordBits, code.Denotes m c → g.ThunkHas m ccOp dep1 dep2 ndep f →
        value.Denotes m
          (BitVec.ofNat g.wordBits (f.condition (FlagBits.codeOf code c)).toNat) := by
  obtain ⟨hlow, hhigh⟩ := wordBits_bounds g
  obtain ⟨cond, needs, hcall⟩ := exists_overThunkOp (h := .mk g .condition) hop
    fun op n => (FlagBits.ofThunk op n dep1 dep2 ndep).condition code
  refine ⟨zeroExt (g.wordBits - 1) cond, needs ++ codeConstraints code, ?_,
    fun m f c hc hthunk => ?_⟩
  · rw [call_eq, map_resize_eq (List.forall_mem_cons.2 ⟨hcode, hwidths⟩)]
    simp only [callWords, hcall]
    rfl
  · have hcond := denotes_of_thunkHas
      (fun f => BitVec.ofBool (f.condition (FlagBits.codeOf code c)))
      (fun bits flags hbits => FlagBits.tells_condition hbits hc (by omega) hhigh) hcall hthunk
    exact denotes_truth (h := .mk g .condition) hcond

end Calls

/-- Calls on the thunk that copies a word of flags read these flags. -/
theorem exists_calls_copy {given : Term} {f : Flags} {c : BitVec g.wordBits}
    (hcode : code.width = g.wordBits) (hc : code.Denotes m c)
    (hgiven : given.Denotes m (f.pack g.wordBits)) :
    (∃ again againNeeds, (Helper.mk g .condition).call [code, .const 0 g.wordBits, given,
        .const 0 g.wordBits, .const 0 g.wordBits] = .ok (again, againNeeds) ∧
      again.Denotes m (BitVec.ofNat g.wordBits (f.condition (FlagBits.codeOf code c)).toNat)) ∧
    ∃ again againNeeds, (Helper.mk g .flags).call [.const 0 g.wordBits, given,
        .const 0 g.wordBits, .const 0 g.wordBits] = .ok (again, againNeeds) ∧
      again.Denotes m (f.pack g.wordBits) := by
  have hwidths : ∀ t ∈ [.const 0 g.wordBits, given, .const 0 g.wordBits, .const 0 g.wordBits],
      t.width = g.wordBits := by
    simp only [List.forall_mem_cons]
    exact ⟨rfl, hgiven.width_eq, rfl, rfl, List.forall_mem_nil _⟩
  have hop := readable_copy g
  have hthunk := thunkHas_copy hgiven
  obtain ⟨holds, holdsNeeds, hholdsCall, hholds⟩ := exists_call_condition hop hwidths hcode
  obtain ⟨flags, flagsNeeds, hflagsCall, hflags⟩ := exists_call_flags hop hwidths
  exact ⟨⟨holds, holdsNeeds, hholdsCall, hholds m f c hc hthunk⟩,
    flags, flagsNeeds, hflagsCall, hflags m f hthunk⟩

/-! ## Agreement -/

/-- The word of flags that one helper gives is what the other two read.  The
carry is its lowest bit, a condition is the same for the thunk and for the
thunk that copies the word, and copying the word gives it again.  The word can
come as any term, such as the constant, and an operation need not be modeled
under the model. -/
theorem helpers_agree_through_copy {g : Guest} {code ccOp dep1 dep2 ndep flags : Term}
    {needs : List Term}
    (hsorts : ∀ t ∈ [code, ccOp, dep1, dep2, ndep], t.HasSort (.bitVec g.wordBits))
    (hcall : (Helper.mk g .flags).call [ccOp, dep1, dep2, ndep] = .ok (flags, needs)) :
    ∃ carry carryNeeds condition conditionNeeds,
      (Helper.mk g .carry).call [ccOp, dep1, dep2, ndep] = .ok (carry, carryNeeds) ∧
      (Helper.mk g .condition).call [code, ccOp, dep1, dep2, ndep] =
        .ok (condition, conditionNeeds) ∧
      ∀ m : Model, m.Total → ∃ (F : BitVec g.wordBits) (holds : Bool),
        flags.eval m = .ok (.word F.toNat g.wordBits) ∧
        (∀ place, F.getLsbD place = true → place ∈ [0, 2, 4, 6, 7, 11]) ∧
        carry.eval m = .ok (.word (F.getLsbD 0).toNat g.wordBits) ∧
        condition.eval m = .ok (.word holds.toNat g.wordBits) ∧
        ∀ given : Term, given.HasSort (.bitVec g.wordBits) →
          given.eval m = .ok (.word F.toNat g.wordBits) →
            (∃ again againNeeds, (Helper.mk g .condition).call [code, .const 0 g.wordBits, given,
                .const 0 g.wordBits, .const 0 g.wordBits] = .ok (again, againNeeds) ∧
              again.eval m = .ok (.word holds.toNat g.wordBits)) ∧
            ∃ again againNeeds, (Helper.mk g .flags).call [.const 0 g.wordBits, given,
                .const 0 g.wordBits, .const 0 g.wordBits] = .ok (again, againNeeds) ∧
              again.eval m = .ok (.word F.toNat g.wordBits) := by
  obtain ⟨hcode, hthunk⟩ := List.forall_mem_cons.1 hsorts
  have hwidths : ∀ t ∈ [ccOp, dep1, dep2, ndep], t.width = g.wordBits :=
    fun t ht => (hthunk t ht).width_eq
  have hop : g.Readable ccOp := by
    rw [call_eq, map_resize_eq hwidths] at hcall
    exact readable_of_overThunkOp (h := .mk g .flags) hcall
  obtain ⟨flags', needs', hcall', hflags⟩ := exists_call_flags hop hwidths
  cases hcall.symm.trans hcall'
  obtain ⟨carry, carryNeeds, hcarryCall, hcarry⟩ := exists_call_carry hop hwidths
  obtain ⟨condition, conditionNeeds, hconditionCall, hcondition⟩ :=
    exists_call_condition hop hwidths hcode.width_eq
  refine ⟨carry, carryNeeds, condition, conditionNeeds, hcarryCall, hconditionCall,
    fun m hm => ?_⟩
  obtain ⟨c, hc⟩ := hcode.exists_denotes hm
  obtain ⟨f, hf⟩ := exists_thunkHas hthunk hm
  have htruth : ∀ b : Bool, (BitVec.ofNat g.wordBits b.toNat).toNat = b.toNat :=
    fun b => toNat_ofNat_toNat g.wordBits_pos b
  have hbit : (f.pack g.wordBits).getLsbD 0 = f.carry :=
    congrArg Flags.carry (Flags.ofThunk_copy_pack (n := g.wordBits) (wordBits_bounds g).1 f 0 0)
  refine ⟨f.pack g.wordBits, f.condition (FlagBits.codeOf code c), (hflags m f hf).eval_eq,
    fun place => Flags.mem_places_of_getLsbD_pack (wordBits_bounds g).1, ?_, ?_,
    fun given hgiven heval => ?_⟩
  · rw [(hcarry m f hf).eval_eq, htruth, hbit]
  · rw [(hcondition m f c hc hf).eval_eq, htruth]
  · have hcopied : given.Denotes m (f.pack g.wordBits) := ⟨hgiven.sort_eq, g.wordBits_le, heval⟩
    obtain ⟨⟨again, againNeeds, hagainCall, hagain⟩, again', againNeeds', hagainCall', hagain'⟩ :=
      exists_calls_copy hcode.width_eq hc hcopied
    refine ⟨⟨again, againNeeds, hagainCall, ?_⟩, again', againNeeds', hagainCall',
      hagain'.eval_eq⟩
    rw [hagain.eval_eq, htruth]

/-- An operation that evaluates to no modeled number copies the flags that it
finds among all bits. -/
theorem helpers_agree_through_copy_unmodeled :
    ∃ flags needs condition conditionNeeds again againNeeds,
      (Helper.mk .x86 .flags).call [.var "op" 32, .const 0xffffffff 32, .const 0 32, .const 0 32] =
        .ok (flags, needs) ∧
      (Helper.mk .x86 .condition).call [.const 4 32, .var "op" 32, .const 0xffffffff 32,
        .const 0 32, .const 0 32] = .ok (condition, conditionNeeds) ∧
      (Helper.mk .x86 .condition).call [.const 4 32, .const 0 32, .const 0x8d5 32, .const 0 32,
        .const 0 32] = .ok (again, againNeeds) ∧
      flags.eval (fun _ => some 99) = .ok (.word 0x8d5 32) ∧
      condition.eval (fun _ => some 99) = again.eval (fun _ => some 99) := by
  have hsorts : ∀ t ∈ [Term.const 4 32, .var "op" 32, .const 0xffffffff 32, .const 0 32,
      .const 0 32], t.HasSort (.bitVec 32) := by
    simp only [List.forall_mem_cons]
    exact ⟨.const (by decide) (by decide) (by decide), .var _ (by decide) (by decide),
      .const (by decide) (by decide) (by decide), .const (by decide) (by decide) (by decide),
      .const (by decide) (by decide) (by decide), List.forall_mem_nil _⟩
  have hcalled : ((Helper.mk .x86 .flags).call [.var "op" 32, .const 0xffffffff 32, .const 0 32,
      .const 0 32]).toOption.any fun r => r.1.eval (fun _ => some 99) = .ok (.word 0x8d5 32) := by
    rw [call_eq]
    decide +kernel
  obtain ⟨⟨flags, needs⟩, hcall, hflags⟩ := any_toOption_iff.1 hcalled
  have hvalue : flags.eval (fun _ => some 99) = .ok (.word 0x8d5 32) := of_decide_eq_true hflags
  obtain ⟨_, _, condition, conditionNeeds, -, hcondition, hagree⟩ :=
    helpers_agree_through_copy (g := .x86) hsorts hcall
  obtain ⟨F, holds, hF, -, -, hholds, hcopied⟩ := hagree (fun _ => some 99) fun _ => ⟨99, rfl⟩
  have hgiven := hvalue.symm.trans hF
  obtain ⟨⟨again, againNeeds, hagain, hsame⟩, -⟩ := hcopied (.const 0x8d5 32)
    (.const (by decide) (by decide) (by decide)) hgiven
  exact ⟨flags, needs, condition, conditionNeeds, again, againNeeds, hcall, hcondition, hagain,
    hvalue, hholds.trans hsame.symm⟩

end Helper

end SymLift
