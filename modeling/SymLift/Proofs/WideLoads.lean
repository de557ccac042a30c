import SymLift.Proofs.Lifting
import SymLift.Proofs.Typing

/-!
# A wide load and the loads of its bytes

A load of several bytes steps through the addresses of the memory, which
have 64 bits.  The loads of its bytes at sums of one word wrap around at the
top of the address space of the guest.  The two agree up to there.

* `byteLoad` is the load of one byte of a wide load.
* `liftLoad_const`: a load at a constant address is the number in the bytes
  there.
* `wide_load_bytes`: what a wide load and the loads of its bytes read, and
  exactly when the first is made of the second.
* `wide_load_past_top`: a load that runs past the top of a guest of 32 bits
  reads other bytes.
-/

namespace SymLift

/-- A number of one word as a literal. -/
def Guest.literal : Guest → Nat → IR.Const
  | .amd64, value => .u64 (UInt64.ofNat value)
  | .x86, value => .u32 (UInt32.ofNat value)

namespace PathState

open IR (Expr Op Ty)

variable {policy : ArgumentPolicy} {s : PathState} {m : Model} {order : ByteOrder} {ty : Ty}
  {literal : IR.Const}

/-- The load of the byte at an index above a constant address. -/
def byteLoad (g : Guest) (order : ByteOrder) (literal : IR.Const) (index : Nat) : Expr :=
  .load order .i8
    (.binop (.sized .add g.wordBits) (.const literal) (.const (g.literal index)))

/-- A wide load is the combination of the loads of its bytes, by value. -/
def LoadsByBytes (policy : ArgumentPolicy) (s : PathState) (m : Model) (order : ByteOrder) (ty : Ty)
    (literal : IR.Const) (count : Nat) : Prop :=
  ∃ (v : Lifted) (bytes : List (BitVec 8)), bytes.length = count ∧
    s.lift policy (.load order ty (.const literal)) = .ok v ∧
    (∀ i b, bytes[i]? = some b →
      ∃ u, s.lift policy (byteLoad s.guest order literal i) = .ok u ∧ u.value.Denotes m b) ∧
    v.value.Denotes m (BitVec.ofNat ty.width (order.number bytes))

/-! ## Loads at constants -/

/-- The literals of one word are numbers of one word. -/
theorem bits_lt_of_word (g : Guest) (h : literal.ty.width = g.wordBits) :
    literal.bits < 2 ^ g.wordBits := by
  rw [← h]
  cases literal with
  | u32 value | f32 value => exact value.toNat_lt
  | u64 value | f64 value => exact value.toNat_lt
  | u1 | u8 | u16 | v128 => cases g <;> cases h

theorem term_eq_const (g : Guest) (h : literal.ty.width = g.wordBits) :
    literal.term = .const literal.bits g.wordBits := by
  rw [IR.Const.term, h, Fold.lit, Word.truncate_eq g.wordBits_le, BitVec.toNat_ofNat,
    Nat.mod_eq_of_lt (bits_lt_of_word g h)]

/-- A load at an address that is lifted to a constant succeeds, and gives
the number that the bytes there hold. -/
theorem liftLoad_const (hs : s.WellFormed) (hm : m.Total) (order : ByteOrder) (ty : Ty)
    {addr : Nat} (hlt : addr < 2 ^ s.guest.wordBits) :
    ∃ v, s.liftLoad order ty ⟨.const addr s.guest.wordBits, []⟩ = .ok v ∧
      v.value.Denotes m (BitVec.ofNat ty.width (order.number
        ((s.memory.flat m).read (BitVec.ofNat 64 addr) (bytesFor ty.width)))) := by
  have hsort : Lifted.WellSorted ⟨.const addr s.guest.wordBits, []⟩ s.guest.wordBits :=
    ⟨.const s.guest.wordBits_pos s.guest.wordBits_le
      (by rwa [Word.size_eq s.guest.wordBits_le]), List.forall_mem_nil _⟩
  have hplace : ByteStore.resolveAddress? (.const addr s.guest.wordBits) (s.constraints ++ []) =
      some addr := by
    have hfits : addr < UInt64.size := hlt.trans_le (by cases s.guest <;> decide)
    rw [ByteStore.resolveAddress?, Term.addressValue?_eq_some_iff.2 ⟨rfl, hfits⟩]
  obtain ⟨v, hload, -⟩ := hasSort_liftLoad hs.holdsBitVectors order ty hsort
  exact ⟨v, hload, (evaluates_liftLoad hs hm hplace hload).2⟩

/-- A number as a literal is cut to a word. -/
theorem literal_eq (g : Guest) (value : Nat) :
    (g.literal value).term = .const (value % 2 ^ g.wordBits) g.wordBits := by
  have hbits : (g.literal value).bits = value % 2 ^ g.wordBits := by
    cases g <;> rfl
  rw [← hbits]
  refine term_eq_const g ?_
  cases g <;> rfl

/-- The address of a byte wraps around at the top of the address space of
the guest. -/
theorem lift_sum (policy : ArgumentPolicy) (s : PathState)
    (h : literal.ty.width = s.guest.wordBits) (index : Nat) :
    s.lift policy (.binop (.sized .add s.guest.wordBits) (.const literal)
        (.const (s.guest.literal index))) =
      .ok ⟨.const ((literal.bits + index) % 2 ^ s.guest.wordBits) s.guest.wordBits, []⟩ := by
  have hcut (value : Nat) : Fold.lit value s.guest.wordBits =
      .const (value % 2 ^ s.guest.wordBits) s.guest.wordBits := by
    rw [Fold.lit, Word.truncate_eq s.guest.wordBits_le, BitVec.toNat_ofNat]
  have hsum (left right : Nat) : (Op.sized .add s.guest.wordBits).apply
      [.const left s.guest.wordBits, .const right s.guest.wordBits] =
      .ok (Fold.lit (Word.truncate s.guest.wordBits (left + right)) s.guest.wordBits) := by
    have hbuilt : Build.binary .add (.const left s.guest.wordBits) (.const right s.guest.wordBits) =
        .ok (Fold.lit (Word.truncate s.guest.wordBits (left + right)) s.guest.wordBits) :=
      Build.binary_ok rfl
    exact congrArg Failure.ofFault hbuilt
  have hlift : s.lift policy (.binop (.sized .add s.guest.wordBits) (.const literal)
        (.const (s.guest.literal index))) =
      liftOp (.sized .add s.guest.wordBits)
        [⟨literal.term, []⟩, ⟨(s.guest.literal index).term, []⟩] := rfl
  rw [hlift, term_eq_const s.guest h, literal_eq, liftOp, List.map_cons, List.map_singleton, hsum,
    ok_bind, hcut, Word.truncate_eq s.guest.wordBits_le, BitVec.toNat_ofNat, Nat.mod_mod,
    Nat.add_mod_mod]
  rfl

/-- The load of a byte reads it at its address in the guest. -/
theorem lift_byteLoad (policy : ArgumentPolicy) (hs : s.WellFormed) (hm : m.Total)
    (order : ByteOrder) (h : literal.ty.width = s.guest.wordBits) (index : Nat) :
    ∃ v, s.lift policy (byteLoad s.guest order literal index) = .ok v ∧ v.value.Denotes m
      (s.memory.flat m (BitVec.ofNat 64 ((literal.bits + index) % 2 ^ s.guest.wordBits))) := by
  obtain ⟨v, hload, hv⟩ := liftLoad_const hs hm order .i8
    (Nat.mod_lt (literal.bits + index) (Nat.two_pow_pos s.guest.wordBits))
  refine ⟨v, ?_, hv.congr rfl ?_⟩
  · rw [byteLoad, lift, lift_sum policy s h]
    exact hload
  · have hone : (s.memory.flat m).read
        (BitVec.ofNat 64 ((literal.bits + index) % 2 ^ s.guest.wordBits)) (bytesFor Ty.i8.width) =
        [s.memory.flat m
          (BitVec.ofNat 64 ((literal.bits + index) % 2 ^ s.guest.wordBits))] :=
      congrArg (fun addr => [s.memory.flat m addr]) (BitVec.add_zero _)
    rw [hone, ByteOrder.number_singleton, BitVec.toNat_ofNat]
    exact Nat.mod_eq_of_lt (BitVec.isLt _)

/-- A wide load reads the bytes at its address and above. -/
theorem lift_wideLoad (policy : ArgumentPolicy) (hs : s.WellFormed) (hm : m.Total)
    (order : ByteOrder) (h : literal.ty.width = s.guest.wordBits) {count : Nat}
    (hty : ty.width = 8 * count) :
    ∃ v, s.lift policy (.load order ty (.const literal)) = .ok v ∧
      v.value.Denotes m (BitVec.ofNat ty.width (order.number
        ((s.memory.flat m).read (BitVec.ofNat 64 literal.bits) count))) := by
  obtain ⟨v, hload, hv⟩ := liftLoad_const hs hm order ty (bits_lt_of_word s.guest h)
  have hcount : bytesFor ty.width = count := by
    rw [bytesFor, hty]
    omega
  refine ⟨v, ?_, hcount ▸ hv⟩
  rw [lift, lift, ok_bind, term_eq_const s.guest h]
  exact hload

/-! ## The two ways to load -/

/-- What the loads of the bytes read. -/
def wrappedBytes (s : PathState) (m : Model) (addr count : Nat) : List (BitVec 8) :=
  (List.range count).map fun i =>
    s.memory.flat m (BitVec.ofNat 64 ((addr + i) % 2 ^ s.guest.wordBits))

/-- A wide load is made of the loads of its bytes if and only if those find
the bytes that it steps through. -/
theorem loadsByBytes_iff (policy : ArgumentPolicy) (hs : s.WellFormed) (hm : m.Total)
    (order : ByteOrder) (h : literal.ty.width = s.guest.wordBits) {count : Nat}
    (hty : ty.width = 8 * count) :
    LoadsByBytes policy s m order ty literal count ↔
      (s.memory.flat m).read (BitVec.ofNat 64 literal.bits) count =
        s.wrappedBytes m literal.bits count := by
  obtain ⟨v, hv, hvalue⟩ := lift_wideLoad policy hs hm order h hty
  have hlength : (s.wrappedBytes m literal.bits count).length = count := by
    rw [wrappedBytes, List.length_map, List.length_range]
  have hbyte {i : Nat} {b : BitVec 8} (hb : (s.wrappedBytes m literal.bits count)[i]? = some b) :
      b = s.memory.flat m (BitVec.ofNat 64 ((literal.bits + i) % 2 ^ s.guest.wordBits)) := by
    obtain ⟨hi, rfl⟩ := List.getElem?_eq_some_iff.1 hb
    simp only [wrappedBytes, List.getElem_map, List.getElem_range]
  constructor
  · rintro ⟨u, bytes, hcount, hu, hbytes, hnumber⟩
    obtain rfl := Except.ok.inj (hv.symm.trans hu)
    -- The bytes are those that the loads of the bytes read.
    have hsame : bytes = s.wrappedBytes m literal.bits count := by
      refine List.ext_getElem (hcount.trans hlength.symm) fun i hi hi' => ?_
      obtain ⟨b, hb, hvalue⟩ := hbytes i _ (List.getElem?_eq_getElem hi)
      obtain ⟨b', hb', hvalue'⟩ := lift_byteLoad policy hs hm order h i
      obtain rfl := Except.ok.inj (hb.symm.trans hb')
      rw [hbyte (List.getElem?_eq_getElem hi')]
      exact hvalue.unique hvalue'
    rw [← hsame]
    have hread := FlatMemory.length_read (s.memory.flat m) (BitVec.ofNat 64 literal.bits) count
    have hlt {l : List (BitVec 8)} (hl : l.length = count) : order.number l < 2 ^ ty.width := by
      rw [hty, Nat.pow_mul, ← hl]
      exact order.number_lt l
    have heq := congrArg BitVec.toNat (hvalue.unique hnumber)
    rw [BitVec.toNat_ofNat, BitVec.toNat_ofNat, Nat.mod_eq_of_lt (hlt hread),
      Nat.mod_eq_of_lt (hlt hcount)] at heq
    exact (order.number_inj (hread.trans hcount.symm)).1 heq
  · intro hread
    refine ⟨v, _, hlength, hv, fun i b hb => ?_, hread ▸ hvalue⟩
    rw [hbyte hb]
    exact lift_byteLoad policy hs hm order h i

/-- The bytes below the top of the address space of the guest are the same
for both. -/
theorem read_eq_wrappedBytes {addr count : Nat}
    (h : s.guest.wordBits = 64 ∨ addr + count ≤ 2 ^ s.guest.wordBits) :
    (s.memory.flat m).read (BitVec.ofNat 64 addr) count = s.wrappedBytes m addr count := by
  refine List.map_congr_left fun i hi => congrArg (s.memory.flat m) ?_
  rw [FlatMemory.place, ← BitVec.ofNat_add, ← BitVec.toNat_inj, BitVec.toNat_ofNat,
    BitVec.toNat_ofNat]
  rcases h with h | h
  · rw [h, Nat.mod_mod]
  · have hi := List.mem_range.1 hi
    rw [Nat.mod_eq_of_lt (show addr + i < 2 ^ s.guest.wordBits by omega)]

/-- A wide load at a constant address succeeds, and so do the loads of its
bytes at sums of one word.  The wide load reads the bytes at its address and
above, where addresses have 64 bits, and is their number.  The load of a
byte reads it at the sum, cut to a word.  So the wide load is made of the
loads of its bytes if and only if they read the same.  They do on a guest of
64 bits, and on one of 32 bits if the wide load does not run past the top of
its address space. -/
theorem wide_load_bytes (policy : ArgumentPolicy) (hs : s.WellFormed) (hm : m.Total)
    (order : ByteOrder) (h : literal.ty.width = s.guest.wordBits) {count : Nat}
    (hty : ty.width = 8 * count) :
    (∃ v, s.lift policy (.load order ty (.const literal)) = .ok v ∧
      v.value.Denotes m (BitVec.ofNat ty.width (order.number
        ((s.memory.flat m).read (BitVec.ofNat 64 literal.bits) count)))) ∧
    (∀ i, ∃ u, s.lift policy (byteLoad s.guest order literal i) = .ok u ∧ u.value.Denotes m
      (s.memory.flat m (BitVec.ofNat 64 ((literal.bits + i) % 2 ^ s.guest.wordBits)))) ∧
    (LoadsByBytes policy s m order ty literal count ↔
      (s.memory.flat m).read (BitVec.ofNat 64 literal.bits) count =
        s.wrappedBytes m literal.bits count) ∧
    (s.guest.wordBits = 64 ∨ literal.bits + count ≤ 2 ^ s.guest.wordBits →
      LoadsByBytes policy s m order ty literal count) :=
  ⟨lift_wideLoad policy hs hm order h hty, lift_byteLoad policy hs hm order h,
    loadsByBytes_iff policy hs hm order h hty,
    fun hbelow => (loadsByBytes_iff policy hs hm order h hty).2 (read_eq_wrappedBytes hbelow)⟩

/-- A path with three bytes around the top of the address space of a guest
of 32 bits. -/
def topPath : PathState :=
  let memory := (PathState.start .x86).memory.storeBytes 0xffffffff [0x11, 0x33]
  { PathState.start .x86 with memory := memory.storeBytes 0 [0x22] }

theorem wellFormed_topPath : topPath.WellFormed := by
  have hstart := wellFormed_start .x86
  have hwritten : ∀ a ∈ [ByteStore.Access.storeBytes 0xffffffff [0x11, 0x33],
      .storeBytes 0 [0x22]], a.WellFormed := by
    intro a ha
    simp only [List.mem_cons, List.not_mem_nil, or_false] at ha
    rcases ha with rfl | rfl <;> trivial
  obtain ⟨hmemory, horder⟩ := ByteStore.cellsWellFormed_run hstart.memory hwritten
  exact { hstart with memory := hmemory, memoryOrder := horder.trans hstart.memoryOrder }

/-- The last two bytes of a guest of 32 bits, and the last and the first of
one of 64 bits. -/
theorem wide_load_bytes_top :
    LoadsByBytes .first topPath (fun _ => some 0) .big .i16 (.u32 0xfffffffe) 2 ∧
      LoadsByBytes .all (.start .amd64) (fun _ => some 1) .little .i16
        (.u64 0xffffffffffffffff) 2 :=
  ⟨(wide_load_bytes .first wellFormed_topPath (fun _ => ⟨0, rfl⟩) .big rfl rfl).2.2.2
      (.inr (by decide)),
    (wide_load_bytes .all (wellFormed_start .amd64) (fun _ => ⟨1, rfl⟩) .little rfl rfl).2.2.2
      (.inl rfl)⟩

/-- A wide load that runs past the top reads the byte above it, and the load
of that byte reads the byte at `0`. -/
theorem wide_load_past_top :
    topPath.WellFormed ∧ ∃ m : Model, m.Total ∧
      ¬LoadsByBytes .first topPath m .little .i16 (.u32 0xffffffff) 2 := by
  refine ⟨wellFormed_topPath, fun _ => some 0, fun _ => ⟨0, rfl⟩, ?_⟩
  rw [loadsByBytes_iff .first wellFormed_topPath (fun _ => ⟨0, rfl⟩) .little rfl rfl]
  decide +kernel

end PathState

end SymLift
