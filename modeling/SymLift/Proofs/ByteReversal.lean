import SymLift.Lift
import SymLift.Proofs.Addresses
import SymLift.Proofs.FlatMemory

/-!
# Bytes split, reversed and read back

A term is split into its bytes and put together again without loss, and an
access that reverses bytes on its way to memory reverses them back on its
way out.

* `byteReversed` is the bit-vector that reads the bytes of another one in the
  opposite order, and `byteReversed_byteReversed` that it does so both ways.
* `Fold.denotes_byteReversed`: reversing the bytes of a term reverses those of
  its value.
* `exists_concat_toBytes`: the bytes of a term, the highest first, are
  concatenated to its value.
* `readsBack`: a load reads back what a store in its byte order wrote.
* `bytes_exact` puts these together.
-/

namespace SymLift

open Term

/-! ## Reversed bit-vectors -/

section

variable {w : Nat}

/-- The bit-vector with its bytes in the opposite order.  One that does not
fill its last byte is left alone. -/
def byteReversed (x : BitVec w) : BitVec w :=
  if 8 ∣ w then BitVec.ofNat w (ByteOrder.big.number (ByteOrder.bytesOf .little x)) else x

theorem toNat_byteReversed (hw : 8 ∣ w) (x : BitVec w) :
    (byteReversed x).toNat = ByteOrder.big.number (ByteOrder.bytesOf .little x) := by
  have hlt := ByteOrder.big.number_lt (ByteOrder.bytesOf .little x)
  rw [ByteOrder.length_bytesOf, show (256 : Nat) = 2 ^ 8 from rfl, ← Nat.pow_mul,
    bytesFor_of_dvd hw] at hlt
  rw [byteReversed, if_pos hw, BitVec.toNat_ofNat, Nat.mod_eq_of_lt hlt]

/-- The bytes are the same ones in the opposite order. -/
theorem bytesOf_byteReversed (hw : 8 ∣ w) (x : BitVec w) :
    ByteOrder.bytesOf .little (byteReversed x) = (ByteOrder.bytesOf .little x).reverse := by
  refine (ByteOrder.number_inj .little ?_).1 ?_
  · rw [List.length_reverse, ByteOrder.length_bytesOf, ByteOrder.length_bytesOf]
  · rw [ByteOrder.number_bytesOf, toNat_byteReversed hw, ByteOrder.number_big]

theorem byteReversed_byteReversed (x : BitVec w) : byteReversed (byteReversed x) = x := by
  by_cases hw : 8 ∣ w
  · refine BitVec.eq_of_toNat_eq ?_
    rw [toNat_byteReversed hw, bytesOf_byteReversed hw, ByteOrder.number_big, List.reverse_reverse,
      ByteOrder.number_bytesOf]
  · rw [byteReversed, if_neg hw, byteReversed, if_neg hw]

/-- The bit-vector that an access in a byte order makes of one that it read
from the highest byte down. -/
def ByteOrder.fixed : ByteOrder → BitVec w → BitVec w
  | .little, x => byteReversed x
  | .big, x => x

theorem ByteOrder.fixed_fixed (order : ByteOrder) (x : BitVec w) :
    order.fixed (order.fixed x) = x := by
  cases order with
  | little => exact byteReversed_byteReversed x
  | big => rfl

end

/-! ## Reversed terms -/

variable {m : Model} {t : Term} {w : Nat} {x : BitVec w}

/-- A term that does not fill its last byte is left alone. -/
theorem Fold.reverseBytes_of_not_dvd (h : ¬8 ∣ t.width) : Fold.reverseBytes t = t :=
  if_pos (.inr fun hmod => h (Nat.dvd_of_mod_eq_zero hmod))

/-- Reversing the bytes of a term reverses those of its value. -/
theorem Fold.denotes_byteReversed (h : t.Denotes m x) :
    (Fold.reverseBytes t).Denotes m (byteReversed x) := by
  by_cases hw : 8 ∣ w
  · have hlength : w = 8 * (ByteOrder.bytesOf .little x).reverse.length := by
      rw [List.length_reverse, ByteOrder.length_bytesOf, bytesFor_of_dvd hw]
    have hjoined : t.Denotes m (ByteOrder.big.joined (ByteOrder.bytesOf .little x).reverse) := by
      refine h.congr hlength ?_
      rw [ByteOrder.toNat_joined, ByteOrder.number_big, List.reverse_reverse,
        ByteOrder.number_bytesOf]
    refine (Fold.denotes_reverseBytes hjoined).congr hlength.symm ?_
    rw [ByteOrder.toNat_joined, toNat_byteReversed hw, ByteOrder.number_big]
  · rw [Fold.reverseBytes_of_not_dvd (h.width_eq ▸ hw), byteReversed, if_neg hw]
    exact h

theorem exists_reverseBytes (h : t.Denotes m x) :
    ∃ r, Build.reverseBytes t = .ok r ∧ r.Denotes m (byteReversed x) :=
  ⟨_, Build.reverseBytes_ok (h.width_eq ▸ h.width_le), Fold.denotes_byteReversed h⟩

/-- An access fixes the order of a term as that of its value. -/
theorem exists_fixOrder (order : ByteOrder) (h : t.Denotes m x) :
    ∃ u, Build.fixOrder order t = .ok u ∧ u.Denotes m (order.fixed x) := by
  cases order with
  | little => exact exists_reverseBytes h
  | big => exact ⟨t, rfl, h⟩

/-- The bytes of a term, the highest first, are concatenated to its value. -/
theorem exists_concat_toBytes (h : t.HasSort (.bitVec w)) (hx : t.Denotes m x) (hw : 8 ∣ w) :
    ∃ first rest whole, Build.toBytes .big t = .ok (first :: rest) ∧
      rest.foldlM Build.concat first = .ok whole ∧ whole.Denotes m x := by
  have hmax : Word.maxBits = 128 := rfl
  have hle := h.width_le
  have hpos := h.width_pos
  have hsorts := Fold.hasSort_toBytes .big h
  have hbytes := Fold.denotes_toBytes .big hx
  have hlength : 8 * (ByteOrder.bytesOf .big x).length = w := by
    rw [ByteOrder.length_bytesOf, bytesFor_of_dvd hw]
  cases hparts : Fold.toBytes .big t with
  | nil =>
    rw [hparts, List.forall₂_nil_left_iff] at hbytes
    rw [hbytes, List.length_nil] at hlength
    omega
  | cons first rest =>
    rw [hparts] at hsorts hbytes
    obtain ⟨hfirst, hrest⟩ := List.forall_mem_cons.1 hsorts
    obtain ⟨b, bs, hb, hbs, hall⟩ := List.forall₂_cons_left_iff.1 hbytes
    rw [hall, List.length_cons] at hlength
    have hlen : rest.length = bs.length := hbs.length_eq
    obtain ⟨hconcat, -⟩ := ByteStore.hasSort_appendBytes .big hfirst hrest (by omega)
    refine ⟨first, rest, _, ?_, hconcat, ?_⟩
    · rw [Build.toBytes_ok (h.width_eq ▸ hle), hparts]
    · refine (ByteStore.denotes_joinBytes .big hb hbs (by omega)).congr hlength ?_
      rw [ByteOrder.toNat_joined, ← hall, ByteOrder.number_bytesOf]

/-! ## Stored and loaded -/

/-- A store that fixes the order of a value, and a load in that order of its
width: the load reads the value back, through any tree that is lifted to the
address of the store. -/
def ReadsBack (m : Model) (t : Term) (x : BitVec w) : Prop :=
  ∀ (policy : ArgumentPolicy) (s : PathState) (order : ByteOrder) (ty : IR.Ty) (place : BitVec 64),
    ty.width = w → ∃ fixed after, Build.fixOrder order t = .ok fixed ∧
      s.memory.storeConcrete place.toNat fixed = .ok after ∧
      (∀ a, a.addressValue? = some place.toNat → s.memory.store a fixed = .ok after) ∧
      ∀ (addr : IR.Expr) (a : Lifted), { s with memory := after }.lift policy addr = .ok a →
        ByteStore.resolveAddress? a.value (s.constraints ++ a.needs) = some place.toNat →
        ∃ v, { s with memory := after }.lift policy (.load order ty addr) = .ok v ∧
          v.value.Denotes m x

theorem readsBack (h : t.HasSort (.bitVec w)) (hx : t.Denotes m x) : ReadsBack m t x := by
  rintro policy s order ty place rfl
  obtain ⟨fixed, hfixed, hsort⟩ := Fold.hasSort_fixOrder order h
  obtain ⟨u, hu, hdenotes⟩ := exists_fixOrder order hx
  obtain rfl := Except.ok.inj (hfixed.symm.trans hu)
  obtain ⟨raw, hload, hback⟩ := ByteStore.exists_load_stored (s := s.memory) hsort place
  -- What is read is the value as it was stored, so the order is fixed twice.
  obtain ⟨v, hv, hvalue⟩ := exists_fixOrder order (hback hdenotes)
  rw [ByteOrder.fixed_fixed] at hvalue
  have hstore := ByteStore.storeConcrete_eq (s := s.memory) hsort place.toNat
  refine ⟨fixed, _, hfixed, hstore, fun a ha => ?_, fun addr a haddr hplace => ?_⟩
  · rw [ByteStore.store_eq ha, hstore]
    rfl
  · refine ⟨⟨v, a.needs⟩, ?_, hvalue⟩
    rw [PathState.lift, haddr, ok_bind, PathState.liftLoad]
    dsimp only
    rw [ByteStore.load_of_resolveAddress? _ hplace ty.width_le, hload, ok_bind, hv, fault_ok_bind]

/-! ## All of it -/

/-- The bytes of a term under a model.  They are its value in little-endian
order, and nothing is lost where they are split, put together, reversed or
stored. -/
structure BytesExact (m : Model) (t : Term) (x : BitVec w) (bytes : List (BitVec 8)) : Prop where
  denotes : t.Denotes m x
  number : ByteOrder.little.number bytes = x.toNat
  /-- The term is split into its bytes, in either order. -/
  split : ∃ parts, Build.toBytes .little t = .ok parts ∧
    Build.toBytes .big t = .ok parts.reverse ∧ parts.length = (w + 7) / 8 ∧
    (∀ p ∈ parts, p.HasSort (.bitVec 8)) ∧ List.Forall₂ (fun p b => p.Denotes m b) parts bytes
  /-- Whole bytes are concatenated to the value, the highest first. -/
  concat : 8 ∣ w → ∃ first rest whole, Build.toBytes .big t = .ok (first :: rest) ∧
    rest.foldlM Build.concat first = .ok whole ∧ whole.Denotes m x
  /-- Whole bytes are reversed, and reversed back. -/
  reverse : 8 ∣ w → ∃ (reversed twice : Term) (y : BitVec w),
    Build.reverseBytes t = .ok reversed ∧ reversed.Denotes m y ∧
    y.toNat = ByteOrder.big.number bytes ∧
    Build.reverseBytes reversed = .ok twice ∧ twice.Denotes m x
  /-- A term that does not fill its last byte is left alone. -/
  keep : ¬8 ∣ w → Build.reverseBytes t = .ok t
  readsBack : ReadsBack m t x

/-- Splitting a well-formed term into bytes and reversing its bytes are
exact. -/
theorem bytes_exact (h : t.HasSort (.bitVec w)) (hm : m.Total) :
    ∃ (x : BitVec w) (bytes : List (BitVec 8)), BytesExact m t x bytes := by
  obtain ⟨x, hx⟩ := h.exists_denotes hm
  have hle : t.width ≤ Word.maxBits := h.width_eq ▸ h.width_le
  refine ⟨x, ByteOrder.bytesOf .little x, {
    denotes := hx
    number := ByteOrder.number_bytesOf .little x
    split := ⟨Fold.toBytes .little t, Build.toBytes_ok hle, Build.toBytes_ok hle, ?_,
      Fold.hasSort_toBytes .little h, Fold.denotes_toBytes .little hx⟩
    concat := exists_concat_toBytes h hx
    reverse := fun hw => ?_
    keep := fun hw => ?_
    readsBack := SymLift.readsBack h hx }⟩
  · rw [Fold.length_toBytes, h.width_eq, bytesFor]
  · obtain ⟨reversed, hreverse, hreversed⟩ := exists_reverseBytes hx
    obtain ⟨twice, htwice, hback⟩ := exists_reverseBytes hreversed
    rw [byteReversed_byteReversed] at hback
    exact ⟨reversed, twice, _, hreverse, hreversed, toNat_byteReversed hw x, htwice, hback⟩
  · rw [Build.reverseBytes_ok hle, Fold.reverseBytes_of_not_dvd (h.width_eq ▸ hw)]

/-- Four bytes that are stored from the lowest up are loaded again. -/
theorem bytes_exact_fourBytes :
    ∃ bytes, BytesExact (fun _ => some 0x01020304) (.var "x" 32) (0x01020304 : BitVec 32) bytes ∧
      ∃ fixed after v, Build.fixOrder .little (.var "x" 32) = .ok fixed ∧
        (PathState.start .amd64).memory.storeConcrete 0x1000 fixed = .ok after ∧
        { PathState.start .amd64 with memory := after }.lift .first
          (.load .little .i32 (.const (.u64 0x1000))) = .ok v ∧
        v.value.Denotes (fun _ => some 0x01020304) (0x01020304 : BitVec 32) := by
  obtain ⟨x, bytes, h⟩ := bytes_exact (t := .var "x" 32) (m := fun _ => some 0x01020304)
    (.var "x" (by decide) (by decide)) fun _ => ⟨_, rfl⟩
  obtain rfl : x = 0x01020304 := h.denotes.unique (.var (by decide) rfl)
  obtain ⟨fixed, after, hfixed, hstore, -, hload⟩ :=
    h.readsBack .first (.start .amd64) .little .i32 0x1000 rfl
  obtain ⟨v, hv, hvalue⟩ := hload (.const (.u64 0x1000)) ⟨.const 0x1000 64, []⟩ rfl rfl
  exact ⟨bytes, h, fixed, after, v, hfixed, hstore, hv, hvalue⟩

end SymLift
