import SymLift.Proofs.KnownCalls

/-!
# The flags after an instruction

The flag thunk holds an operation and words that its flags can be computed
from.  Here the flags are those of the machine: an `Instruction` has its own
operands, `Instruction.flags` are the flags that it sets, and
`Instruction.Leaves` says what lifted code puts into the thunk for it.

* `Guest.byteNumber` lists the numbers of the operations, and
  `Guest.thunkNumber_eq` and `Guest.decodeThunk?_byteNumber` say that every
  operation of every data width is numbered and read in that order.
* `Instruction.ofThunk_eq_flags`: the thunk of an instruction stands for its
  flags.  The operand that was combined with the old carry is recovered, and a
  shift by one bit less still shows the bit that is shifted out.
* `Helper.call_map_const`: a call on constant words is the word that the helper
  computes.
* `Helper.flags_after_instruction` puts these together.
-/

namespace SymLift

variable {n word : Nat}

/-! ## Numbers of operations -/

namespace Guest

variable {g : Guest}

/-- The number of an operation of some data width. -/
def thunkNumber (g : Guest) (op : ThunkOp) (n : Nat) : Nat :=
  1 + (ThunkOp.groups.idxOf op * g.dataWidths.length + g.dataWidths.idxOf n)

/-- The number of an operation on bytes.  Those on wider data follow it, by
width. -/
def byteNumber : Guest → ThunkOp → Nat
  | _, .copy => 0
  | .amd64, .add => 1
  | .amd64, .sub => 5
  | .amd64, .adc => 9
  | .amd64, .sbb => 13
  | .amd64, .logic => 17
  | .amd64, .inc => 21
  | .amd64, .dec => 25
  | .amd64, .shl => 29
  | .amd64, .shr => 33
  | .x86, .add => 1
  | .x86, .sub => 4
  | .x86, .adc => 7
  | .x86, .sbb => 10
  | .x86, .logic => 13
  | .x86, .inc => 16
  | .x86, .dec => 19
  | .x86, .shl => 22
  | .x86, .shr => 25

/-- Each operation of each data width has the number that the table gives. -/
theorem thunkNumber_eq {op : ThunkOp} (hop : op ≠ .copy) :
    ∀ n ∈ g.dataWidths, g.thunkNumber op n = g.byteNumber op + Nat.log2 (n / 8) := by
  cases op with
  | copy => exact absurd rfl hop
  | add | sub | adc | sbb | logic | inc | dec | shl | shr => cases g <;> decide

/-- A number of the table is read as its operation and width. -/
theorem decodeThunk?_byteNumber {op : ThunkOp} (hop : op ≠ .copy) :
    ∀ n ∈ g.dataWidths,
      g.decodeThunk? (g.byteNumber op + Nat.log2 (n / 8)) = some (op, n) := by
  cases op with
  | copy => exact absurd rfl hop
  | add | sub | adc | sbb | logic | inc | dec | shl | shr => cases g <;> decide

theorem decodeThunk?_thunkNumber {op : ThunkOp} (hop : op ≠ .copy) (hn : n ∈ g.dataWidths) :
    g.decodeThunk? (g.thunkNumber op n) = some (op, n) := by
  rw [thunkNumber_eq hop n hn]
  exact decodeThunk?_byteNumber hop n hn

end Guest

/-! ## Instructions -/

/-- An instruction that sets flags, with its operands of `n` bits. -/
inductive Instruction (n : Nat) where
  | add (l r : BitVec n)
  /-- Addition with the old carry. -/
  | adc (l r : BitVec n) (old : Bool)
  | sub (l r : BitVec n)
  /-- Subtraction with the old borrow. -/
  | sbb (l r : BitVec n) (old : Bool)
  /-- A bitwise operation, given by its result. -/
  | logic (result : BitVec n)
  /-- A step up, which keeps the old carry. -/
  | inc (x : BitVec n) (old : Bool)
  /-- A step down, which keeps the old carry. -/
  | dec (x : BitVec n) (old : Bool)
  | shl (x : BitVec n) (count : Nat)
  | shr (x : BitVec n) (count : Nat)

namespace Instruction

/-- The operation that an instruction leaves in the thunk. -/
def op : Instruction n → ThunkOp
  | add .. => .add
  | adc .. => .adc
  | sub .. => .sub
  | sbb .. => .sbb
  | logic _ => .logic
  | inc .. => .inc
  | dec .. => .dec
  | shl .. => .shl
  | shr .. => .shr

/-- The flags that the machine sets.  The carry of a shift is the last bit that
is shifted out. -/
def flags : Instruction n → Flags
  | add l r => .sum l r false
  | adc l r old => .sum l r old
  | sub l r => .difference l r false
  | sbb l r old => .difference l r old
  | logic result => .ofResult result false false false
  | inc x old => { Flags.sum x 1 false with carry := old }
  | dec x old => { Flags.difference x 1 false with carry := old }
  | shl x count =>
    .ofResult (x <<< count) (x.getLsbD (n - count)) false
      ((x <<< count).msb ^^ (x <<< (count - 1)).msb)
  | shr x count =>
    .ofResult (x >>> count) (x.getLsbD (count - 1)) false
      ((x >>> count).msb ^^ (x >>> (count - 1)).msb)

/-- The words that an instruction leaves in the thunk.  Only their low bits
matter. -/
def Leaves (dep1 dep2 ndep : BitVec word) : Instruction n → Prop
  | add l r | sub l r => dep1.setWidth n = l ∧ dep2.setWidth n = r
  | adc l r old | sbb l r old =>
    dep1.setWidth n = l ∧ dep2.setWidth n = r ^^^ BitVec.ofNat n old.toNat ∧ ndep.getLsbD 0 = old
  | logic result => dep1.setWidth n = result
  | inc x old => dep1.setWidth n = x + 1 ∧ ndep.getLsbD 0 = old
  | dec x old => dep1.setWidth n = x - 1 ∧ ndep.getLsbD 0 = old
  | shl x count =>
    1 ≤ count ∧ count ≤ n ∧ dep1.setWidth n = x <<< count ∧ dep2.setWidth n = x <<< (count - 1)
  | shr x count =>
    1 ≤ count ∧ count ≤ n ∧ dep1.setWidth n = x >>> count ∧ dep2.setWidth n = x >>> (count - 1)

variable {dep1 dep2 ndep : BitVec word}

theorem op_ne_copy (i : Instruction n) : i.op ≠ .copy := by
  cases i <;> exact ThunkOp.noConfusion

/-- The thunk of an instruction stands for the flags that the machine sets. -/
theorem ofThunk_eq_flags {i : Instruction n} (h : i.Leaves dep1 dep2 ndep) :
    Flags.ofThunk i.op n dep1 dep2 ndep = i.flags := by
  cases i with
  | add l r =>
    obtain ⟨rfl, rfl⟩ := h
    rfl
  | sub l r =>
    obtain ⟨rfl, rfl⟩ := h
    rfl
  | adc l r old =>
    obtain ⟨rfl, hr, rfl⟩ := h
    rw [op, Flags.ofThunk, hr, flags, BitVec.xor_assoc, BitVec.xor_self, BitVec.xor_zero]
  | sbb l r old =>
    obtain ⟨rfl, hr, rfl⟩ := h
    rw [op, Flags.ofThunk, hr, flags, BitVec.xor_assoc, BitVec.xor_self, BitVec.xor_zero]
  | logic result =>
    cases h
    rfl
  | inc x old =>
    obtain ⟨hx, rfl⟩ := h
    rw [op, Flags.ofThunk, hx, flags, BitVec.add_sub_cancel]
  | dec x old =>
    obtain ⟨hx, rfl⟩ := h
    rw [op, Flags.ofThunk, hx, flags, BitVec.sub_add_cancel]
  | shl x count =>
    obtain ⟨hpos, hle, hresult, hprevious⟩ := h
    have hlost : (x <<< (count - 1)).msb = x.getLsbD (n - count) := by
      have hplace : n - 1 - (count - 1) = n - count := by omega
      rw [BitVec.msb_eq_getLsbD_last, BitVec.getLsbD_shiftLeft, hplace,
        decide_eq_true (by omega), decide_eq_false (by omega)]
      rfl
    rw [op, Flags.ofThunk, hresult, hprevious, flags, ← hlost]
  | shr x count =>
    obtain ⟨hpos, hle, hresult, hprevious⟩ := h
    have hlost : (x >>> (count - 1)).getLsbD 0 = x.getLsbD (count - 1) := by
      rw [BitVec.getLsbD_ushiftRight, Nat.add_zero]
    rw [op, Flags.ofThunk, hresult, hprevious, hlost, flags]

end Instruction

/-! ## Calls on constants -/

namespace Helper

open Guest

variable {h : Helper} {g : Guest} {number : Nat} {op : ThunkOp}

/-- A call on constant words gives the word that the helper computes, and
relies on nothing. -/
theorem call_map_const {words : List (BitVec h.guest.wordBits)} {x : BitVec h.guest.wordBits}
    (hx : h.computeWords words = some x) :
    h.call (words.map fun x => .const x.toNat h.guest.wordBits) =
      .ok (.const x.toNat h.guest.wordBits, []) := by
  have hargs : List.Forall₂ (Term.Evaluates fun _ => none)
      (words.map fun x => .const x.toNat h.guest.wordBits)
      (words.map fun x => ⟨h.guest.wordBits, x⟩) := by
    rw [List.forall₂_map_left_iff, List.forall₂_map_right_iff, List.forall₂_same]
    exact fun x _ => ⟨h.guest.wordBits_pos, rfl, h.guest.wordBits_le, rfl⟩
  have hwords : (words.map fun x => (⟨h.guest.wordBits, x⟩ : Bits)).map
      (fun c => c.value.setWidth h.guest.wordBits) = words := by
    simp [Function.comp_def]
  rw [call_of_constants hargs (List.forall_mem_map.2 fun _ _ => rfl), outcome, hwords,
    outcomeWords_of_compute hx, Except.map]

/-- The number of a modeled operation is a word. -/
theorem lt_two_pow_of_decoded (hdecode : g.decodeThunk? number = some (op, n)) :
    number < 2 ^ g.wordBits :=
  lt_two_pow_of_lt_modeledOps
    (isSome_decodeThunk?_iff.1 (Option.isSome_iff_exists.2 ⟨_, hdecode⟩))

theorem toNat_ofNat_of_decoded (hdecode : g.decodeThunk? number = some (op, n)) :
    (BitVec.ofNat g.wordBits number).toNat = number := by
  rw [BitVec.toNat_ofNat, Nat.mod_eq_of_lt (lt_two_pow_of_decoded hdecode)]

theorem thunkFlags?_of_decoded (hdecode : g.decodeThunk? number = some (op, n))
    (dep1 dep2 ndep : BitVec g.wordBits) :
    g.thunkFlags? (BitVec.ofNat g.wordBits number) dep1 dep2 ndep =
      some (Flags.ofThunk op n dep1 dep2 ndep) := by
  rw [thunkFlags?, toNat_ofNat_of_decoded hdecode, hdecode, Option.map_some]

/-- The flags of a thunk of constants, as a constant. -/
theorem call_flags_of_decoded (hdecode : g.decodeThunk? number = some (op, n))
    (dep1 dep2 ndep : BitVec g.wordBits) :
    (Helper.mk g .flags).call [.const number g.wordBits, .const dep1.toNat g.wordBits,
        .const dep2.toNat g.wordBits, .const ndep.toNat g.wordBits] =
      .ok (.const ((Flags.ofThunk op n dep1 dep2 ndep).pack g.wordBits).toNat g.wordBits, []) := by
  have hcompute : (Helper.mk g .flags).computeWords
      [BitVec.ofNat g.wordBits number, dep1, dep2, ndep] =
        some ((Flags.ofThunk op n dep1 dep2 ndep).pack g.wordBits) := by
    simp only [computeWords, thunkFlags?_of_decoded hdecode, Option.map_some]
  have hcall := call_map_const hcompute
  simp only [List.map_cons, toNat_ofNat_of_decoded hdecode] at hcall
  exact hcall

/-- The places of the six flags in a number. -/
theorem and_flagPlaces (x : Nat) :
    x &&& 0x8d5 = (x.testBit 0).toNat + 4 * (x.testBit 2).toNat + 16 * (x.testBit 4).toNat +
      64 * (x.testBit 6).toNat + 128 * (x.testBit 7).toNat + 2048 * (x.testBit 11).toNat := by
  have hsum : ∀ c p a z s o : Bool, c.toNat * 2 ^ 0 ||| p.toNat * 2 ^ 2 ||| a.toNat * 2 ^ 4 |||
        z.toNat * 2 ^ 6 ||| s.toNat * 2 ^ 7 ||| o.toNat * 2 ^ 11 =
      c.toNat + 4 * p.toNat + 16 * a.toNat + 64 * z.toNat + 128 * s.toNat + 2048 * o.toNat := by
    decide
  rw [← hsum]
  simp only [← Nat.and_two_pow, ← Nat.and_or_distrib_left]
  rfl

/-- Flags that are given pass through, and nothing else does. -/
theorem pack_copy (hword : 12 ≤ word) (dep1 dep2 ndep : BitVec word) :
    (Flags.ofThunk .copy n dep1 dep2 ndep).pack word = dep1 &&& BitVec.ofNat word 0x8d5 := by
  have hfits : 0x8d5 < 2 ^ word :=
    Nat.lt_of_lt_of_le (by decide : 0x8d5 < 2 ^ 12) (Nat.pow_le_pow_right (by decide) hword)
  have hmask : (dep1 &&& BitVec.ofNat word 0x8d5).toNat = dep1.toNat &&& 0x8d5 := by
    rw [BitVec.toNat_and, BitVec.toNat_ofNat, Nat.mod_eq_of_lt hfits]
  apply BitVec.eq_of_toNat_eq
  rw [hmask, Flags.pack, BitVec.toNat_ofNat]
  calc
    _ = (dep1.toNat &&& 0x8d5) % 2 ^ word := by
      rw [and_flagPlaces]
      rfl
    _ = dep1.toNat &&& 0x8d5 := Nat.mod_eq_of_lt (Nat.lt_of_le_of_lt Nat.and_le_right hfits)

/-- The flags that a helper computes after an instruction are those that the
machine sets.  Where the flags are given instead, they pass through and
nothing else does. -/
theorem flags_after_instruction (g : Guest) :
    (∀ n ∈ g.dataWidths, ∀ (i : Instruction n) (dep1 dep2 ndep : BitVec g.wordBits),
      i.Leaves dep1 dep2 ndep →
        (Helper.mk g .flags).call [.const (g.thunkNumber i.op n) g.wordBits,
            .const dep1.toNat g.wordBits, .const dep2.toNat g.wordBits,
            .const ndep.toNat g.wordBits] =
          .ok (.const (i.flags.pack g.wordBits).toNat g.wordBits, [])) ∧
    ∀ dep1 dep2 ndep : BitVec g.wordBits,
      (Helper.mk g .flags).call [.const 0 g.wordBits, .const dep1.toNat g.wordBits,
          .const dep2.toNat g.wordBits, .const ndep.toNat g.wordBits] =
        .ok (.const (dep1 &&& BitVec.ofNat g.wordBits 0x8d5).toNat g.wordBits, []) := by
  constructor
  · intro n hn i dep1 dep2 ndep hleaves
    rw [← Instruction.ofThunk_eq_flags hleaves]
    exact call_flags_of_decoded (decodeThunk?_thunkNumber i.op_ne_copy hn) dep1 dep2 ndep
  · intro dep1 dep2 ndep
    rw [← pack_copy (n := g.wordBits) (wordBits_bounds g).1 dep1 dep2 ndep]
    exact call_flags_of_decoded rfl dep1 dep2 ndep

/-- The right operand and the carry together are `2 ^ 64`, so the sum is the
left operand and carries out. -/
theorem flags_after_instruction_adc :
    (Helper.mk .amd64 .flags).call [.const 12 64, .const 1 64, .const 0xfffffffffffffffe 64,
      .const 1 64] = .ok (.const 0x11 64, []) :=
  (flags_after_instruction .amd64).1 64 (by decide) (.adc 1 0xffffffffffffffff true) 1
    0xfffffffffffffffe 1 ⟨by decide, by decide, by decide⟩

end Helper

end SymLift
