import SymLift.Proofs.Bytes
import SymLift.Proofs.Valuation

/-!
# A byte store is a flat byte array

Under a model a byte store is an array of bytes, one for each address of 64
bits.  `ByteStore.flat` is this array, and every access to the store is an
access to the array.

* `FlatMemory.Wrote` says what a write does to an array: the bytes at an
  address and above are given, and all others stay.
* `wrote_setBytes`: a store writes bytes in this sense, whether or not they
  wrap around the end of the address space.
* `denotes_loadConcrete`: a load reads the number that the bytes hold.
* `exists_load_stored`: a value that was stored is loaded back, whatever the
  other cells hold.
* `denotes_load_part`: a load from what a store wrote finds its bits.
* `run_refinesFlat` says all this of every store that a run of accesses
  leads to.
-/

namespace SymLift

/-! ## Flat arrays -/

/-- An array of bytes, one for each address. -/
abbrev FlatMemory := BitVec 64 → BitVec 8

namespace FlatMemory

/-- The address `offset` bytes above another.  Addresses wrap around. -/
def place (addr : BitVec 64) (offset : Nat) : BitVec 64 := addr + BitVec.ofNat 64 offset

/-- The bytes at an address and above. -/
def read (memory : FlatMemory) (addr : BitVec 64) (count : Nat) : List (BitVec 8) :=
  (List.range count).map fun i => memory (place addr i)

/-- Bytes were written at an address and above, and nowhere else. -/
structure Wrote (before after : FlatMemory) (addr : BitVec 64) (bytes : List (BitVec 8)) :
    Prop where
  inside : ∀ i (h : i < bytes.length), after (place addr i) = bytes[i]
  outside : ∀ other, (∀ i < bytes.length, other ≠ place addr i) → after other = before other

theorem place_place (addr : BitVec 64) (i j : Nat) :
    place (place addr i) j = place addr (i + j) := by
  rw [place, place, place, BitVec.add_assoc, ← BitVec.ofNat_add]

theorem length_read (memory : FlatMemory) (addr : BitVec 64) (count : Nat) :
    (memory.read addr count).length = count := by
  simp [read]

/-- What was written is read back, all of it or a part. -/
theorem Wrote.read_eq {before after : FlatMemory} {addr : BitVec 64} {bytes : List (BitVec 8)}
    (h : Wrote before after addr bytes) (start count : Nat) (hle : start + count ≤ bytes.length) :
    after.read (place addr start) count = (bytes.drop start).take count := by
  refine List.ext_getElem ?_ fun i hi _ => ?_
  · rw [length_read, List.length_take, List.length_drop]
    omega
  · rw [length_read] at hi
    simp only [read, List.getElem_map, List.getElem_range, place_place, List.getElem_take,
      List.getElem_drop]
    exact h.inside (start + i) (by omega)

end FlatMemory

namespace ByteStore

open FlatMemory Term

/-- The array that a store is under a model. -/
def flat (m : Model) (s : ByteStore) : FlatMemory := fun addr =>
  match (s.byteAt addr.toNat).eval m with
  | .ok (.word value _) => BitVec.ofNat 8 value
  | _ => 0

/-- Every cell holds a well-formed byte. -/
def CellsWellFormed (s : ByteStore) : Prop := ∀ addr, (s.byteAt addr).HasSort (.bitVec 8)

variable {m : Model} {s : ByteStore} {w : Nat}

theorem flat_eq {addr : BitVec 64} {b : BitVec 8} (h : (s.byteAt addr.toNat).Denotes m b) :
    s.flat m addr = b := by
  rw [flat, h.eval_eq]
  exact (BitVec.ofNat_toNat 8 b).trans (BitVec.setWidth_eq b)

/-- The array holds the values of the cells. -/
theorem denotes_flat (hs : s.CellsWellFormed) (hm : m.Total) (addr : BitVec 64) :
    (s.byteAt addr.toNat).Denotes m (s.flat m addr) := by
  obtain ⟨b, hb⟩ := (hs addr.toNat).exists_denotes hm
  rwa [flat_eq hb]

theorem cellsWellFormed_empty (name : String) (order : ByteOrder) :
    (empty name order).CellsWellFormed := by
  intro addr
  rw [byteAt_empty]
  exact .var _ (by decide) (by decide)

/-! ## Writing -/

theorem addressAt_toNat (addr : BitVec 64) (offset : Nat) :
    addressAt addr.toNat offset = (place addr offset).toNat := by
  rw [place, BitVec.toNat_add, BitVec.toNat_ofNat, Nat.add_mod_mod]
  rfl

theorem cellsWellFormed_setByte (hs : s.CellsWellFormed) {byte : Term}
    (hb : byte.HasSort (.bitVec 8)) (addr : Nat) : (s.setByte addr byte).CellsWellFormed := by
  intro other
  rw [byteAt_setByte]
  split
  · exact hb
  · exact hs other

theorem cellsWellFormed_setBytes (hs : s.CellsWellFormed) {bytes : List Term}
    (hb : ∀ t ∈ bytes, t.HasSort (.bitVec 8)) (addr : Nat) :
    (s.setBytes addr bytes).CellsWellFormed := by
  induction bytes generalizing s addr with
  | nil => exact hs
  | cons byte bytes ih =>
    obtain ⟨hbyte, hbytes⟩ := List.forall_mem_cons.1 hb
    exact ih (cellsWellFormed_setByte hs hbyte addr) hbytes _

theorem order_setBytes (s : ByteStore) (addr : Nat) (bytes : List Term) :
    (s.setBytes addr bytes).order = s.order := by
  induction bytes generalizing s addr with
  | nil => rfl
  | cons byte bytes ih => rw [setBytes, ih, setByte]

/-- A write leaves every cell that it does not cover. -/
theorem byteAt_setBytes_outside {bytes : List Term} {addr other : BitVec 64}
    (h : ∀ i < bytes.length, other ≠ place addr i) :
    (s.setBytes addr.toNat bytes).byteAt other.toNat = s.byteAt other.toNat := by
  induction bytes generalizing s addr with
  | nil => rfl
  | cons byte bytes ih =>
    have hhead : addr.toNat ≠ other.toNat := by
      intro heq
      have hplace : place addr 0 = addr := BitVec.add_zero addr
      exact h 0 (Nat.succ_pos _) (by rw [hplace, BitVec.eq_of_toNat_eq heq])
    rw [setBytes, addressAt_toNat, ih, byteAt_setByte, if_neg hhead]
    intro i hi
    rw [place_place, Nat.add_comm]
    exact h (i + 1) (Nat.succ_lt_succ hi)

/-- Addresses less than `2 ^ 64` bytes apart are different. -/
theorem place_ne {addr : BitVec 64} {offset : Nat} (pos : 0 < offset) (lt : offset < 2 ^ 64) :
    addr ≠ place addr offset := by
  intro heq
  have hzero : BitVec.ofNat 64 offset = 0 := by
    rwa [place, eq_comm, add_eq_left] at heq
  have hnum := congrArg BitVec.toNat hzero
  rw [BitVec.toNat_ofNat, Nat.mod_eq_of_lt lt] at hnum
  exact absurd hnum (Nat.pos_iff_ne_zero.1 pos)

/-- A write that does not overtake itself leaves its bytes. -/
theorem byteAt_setBytes_inside {bytes : List Term} {addr : BitVec 64} (hlen : bytes.length ≤ 2 ^ 64)
    (i : Nat) (h : i < bytes.length) :
    (s.setBytes addr.toNat bytes).byteAt (place addr i).toNat = bytes[i] := by
  induction bytes generalizing s addr i with
  | nil => exact absurd h (Nat.not_lt_zero i)
  | cons byte bytes ih =>
    rw [List.length_cons] at hlen
    rw [setBytes, addressAt_toNat]
    cases i with
    | zero =>
      have hplace : place addr 0 = addr := BitVec.add_zero addr
      rw [hplace, byteAt_setBytes_outside, byteAt_setByte, if_pos rfl, List.getElem_cons_zero]
      intro j hj
      rw [place_place, Nat.add_comm]
      exact place_ne (Nat.succ_pos j) (by omega)
    | succ i =>
      rw [List.getElem_cons_succ, Nat.add_comm i 1, ← place_place]
      exact ih (by omega) i (Nat.lt_of_succ_lt_succ h)

/-- Raw bytes are constants. -/
theorem denotes_data (m : Model) (data : List UInt8) :
    List.Forall₂ (fun t b => t.Denotes m b) (data.map fun b => Fold.lit b.toNat 8)
      (data.map UInt8.toBitVec) := by
  rw [List.forall₂_map_left_iff, List.forall₂_map_right_iff, List.forall₂_same]
  exact fun b _ => Fold.denotes_lit_toNat (by decide) b.toBitVec

/-- A write to a store is a write to its array. -/
theorem wrote_setBytes {terms : List Term} {bytes : List (BitVec 8)}
    (h : List.Forall₂ (fun t b => t.Denotes m b) terms bytes) (hlen : bytes.length ≤ 2 ^ 64)
    (addr : BitVec 64) : Wrote (s.flat m) ((s.setBytes addr.toNat terms).flat m) addr bytes where
  inside := by
    intro i hi
    have hi' : i < terms.length := h.length_eq ▸ hi
    refine flat_eq ?_
    rw [byteAt_setBytes_inside (h.length_eq ▸ hlen) i hi']
    exact h.get hi' hi
  outside := by
    intro other hother
    rw [flat, flat, byteAt_setBytes_outside (h.length_eq ▸ hother)]

/-! ## Reading -/

theorem denotes_read (hs : s.CellsWellFormed) (hm : m.Total) (addr : BitVec 64) (count : Nat) :
    List.Forall₂ (fun t b => t.Denotes m b)
      ((List.range count).map fun i => s.byteAt (addressAt addr.toNat i))
      ((s.flat m).read addr count) := by
  rw [FlatMemory.read, List.forall₂_map_left_iff, List.forall₂_map_right_iff, List.forall₂_same]
  intro i _
  rw [addressAt_toNat]
  exact denotes_flat hs hm _

/-- The cells at an address and above are joined into what they hold. -/
theorem denotes_joined_cells {bytes : List (BitVec 8)} {addr count : Nat}
    (h : List.Forall₂ (fun t b => t.Denotes m b)
      ((List.range count).map fun i => s.byteAt (addressAt addr i)) bytes)
    (pos : 0 < count) (le : 8 * count ≤ Word.maxBits) :
    (s.joined addr count).Denotes m (s.order.joined bytes) := by
  have hlength : bytes.length = count := by simpa using h.length_eq.symm
  unfold joined
  split
  · rename_i hnone
    rw [hnone, List.forall₂_nil_left_iff] at h
    rw [h, List.length_nil] at hlength
    omega
  · rename_i byte bytes hsome
    rw [hsome, List.forall₂_cons_left_iff] at h
    obtain ⟨b, bs, hb, hbs, rfl⟩ := h
    rw [List.length_cons] at hlength
    exact denotes_joinBytes s.order hb hbs (by omega)

theorem denotes_joined (hs : s.CellsWellFormed) (hm : m.Total) (addr : BitVec 64) {count : Nat}
    (pos : 0 < count) (le : 8 * count ≤ Word.maxBits) :
    (s.joined addr.toNat count).Denotes m (s.order.joined ((s.flat m).read addr count)) :=
  denotes_joined_cells (denotes_read hs hm addr count) pos le

theorem hasSort_appendByte (order : ByteOrder) {lower byte : Term} {v : Nat}
    (hl : lower.HasSort (.bitVec v)) (hb : byte.HasSort (.bitVec 8)) (le : v + 8 ≤ Word.maxBits) :
    appendByte order lower byte = .ok (joinByte order lower byte) ∧
      (joinByte order lower byte).HasSort (.bitVec (v + 8)) := by
  have hlower := hl.width_eq
  have hbyte := hb.width_eq
  cases order with
  | big => exact ⟨Build.concat_ok (by omega), Fold.hasSort_concat hl hb le⟩
  | little =>
    refine ⟨Build.concat_ok (by omega), ?_⟩
    rw [Nat.add_comm]
    exact Fold.hasSort_concat hb hl (by omega)

theorem hasSort_appendBytes (order : ByteOrder) {lower : Term} {bytes : List Term} {v : Nat}
    (hl : lower.HasSort (.bitVec v)) (hb : ∀ t ∈ bytes, t.HasSort (.bitVec 8))
    (le : v + 8 * bytes.length ≤ Word.maxBits) :
    bytes.foldlM (appendByte order) lower = .ok (bytes.foldl (joinByte order) lower) ∧
      (bytes.foldl (joinByte order) lower).HasSort (.bitVec (v + 8 * bytes.length)) := by
  induction bytes generalizing lower v with
  | nil => exact ⟨rfl, hl⟩
  | cons byte bytes ih =>
    obtain ⟨hbyte, hbytes⟩ := List.forall_mem_cons.1 hb
    rw [List.length_cons] at le ⊢
    obtain ⟨hjoin, hsort⟩ := hasSort_appendByte order hl hbyte (by omega)
    obtain ⟨hrest, hlast⟩ := ih hsort hbytes (by omega)
    rw [List.foldlM_cons, hjoin, ok_bind, List.foldl_cons]
    refine ⟨hrest, ?_⟩
    rwa [show v + 8 * (bytes.length + 1) = v + 8 + 8 * bytes.length by omega]

/-- No concatenation of the bytes of a value is too wide. -/
theorem hasSort_joined {addr count : Nat}
    (hcells : ∀ i < count, (s.byteAt (addressAt addr i)).HasSort (.bitVec 8)) (pos : 0 < count)
    (le : 8 * count ≤ Word.maxBits) : s.joinBytes addr count = .ok (s.joined addr count) ∧
      (s.joined addr count).HasSort (.bitVec (8 * count)) := by
  obtain ⟨rest, rfl⟩ : ∃ rest, count = rest + 1 := ⟨count - 1, by omega⟩
  have hbytes : ∀ t ∈ (List.range' 1 rest).map fun i => s.byteAt (addressAt addr i),
      t.HasSort (.bitVec 8) := by
    rw [List.forall_mem_map]
    intro i hi
    rw [List.mem_range'_1] at hi
    exact hcells i (by omega)
  have hall := hasSort_appendBytes s.order (hcells 0 pos) hbytes
    (by rw [List.length_map, List.length_range']; omega)
  rw [List.length_map, List.length_range', Nat.add_comm, ← Nat.mul_succ] at hall
  rw [joinBytes, joined, List.range_eq_range', List.range'_succ, List.map_cons]
  exact hall

/-- A load from known cells succeeds if these hold bytes. -/
theorem loadConcrete_eq {addr : Nat}
    (hcells : ∀ i < bytesFor w, (s.byteAt (addressAt addr i)).HasSort (.bitVec 8)) (pos : 0 < w)
    (le : w ≤ Word.maxBits) :
    s.loadConcrete addr w = .ok (Fold.resize w (s.joined addr (bytesFor w))) := by
  rw [loadConcrete, if_neg (Nat.not_lt.2 le), (hasSort_joined hcells (bytesFor_pos pos) (bytesFor_le le)).1,
    ok_bind, Build.resize_ok pos le]
  rfl

/-- A load of a width that a term can have succeeds, whether or not it can be
placed. -/
theorem hasSort_load (hs : s.CellsWellFormed) (addr : Term) (known : List Term) (pos : 0 < w)
    (le : w ≤ Word.maxBits) : ∃ t, s.load addr w known = .ok t ∧ t.HasSort (.bitVec w) := by
  rw [load, if_neg (Nat.not_lt.2 le)]
  cases resolveAddress? addr known with
  | none => exact ⟨_, congrArg Failure.ofFault (Build.var_ok pos le), .var _ pos le⟩
  | some place =>
    exact ⟨_, loadConcrete_eq (fun _ _ => hs _) pos le,
      Fold.hasSort_resize
        (hasSort_joined (fun _ _ => hs _) (bytesFor_pos pos) (bytesFor_le le)).2 pos le⟩

/-- A load at a known address gives the number that the bytes there hold. -/
theorem denotes_loadConcrete (hs : s.CellsWellFormed) (hm : m.Total) (addr : BitVec 64)
    (pos : 0 < w) (le : w ≤ Word.maxBits) :
    ∃ t, s.loadConcrete addr.toNat w = .ok t ∧
      t.Denotes m (BitVec.ofNat w (s.order.number ((s.flat m).read addr (bytesFor w)))) := by
  have hjoined := denotes_joined hs hm addr (bytesFor_pos pos) (bytesFor_le le)
  have hresized := Fold.denotes_resize hjoined pos le
  refine ⟨_, loadConcrete_eq (fun _ _ => hs _) pos le, hresized.congr rfl ?_⟩
  rw [BitVec.toNat_setWidth, ByteOrder.toNat_joined, BitVec.toNat_ofNat]

/-- A load of one byte from a known place is the cell there, if that is a
byte. -/
theorem load_byte {t : Term} {addr : Nat} (hwidth : (s.byteAt addr).width = 8)
    (ht : t.addressValue? = some addr) (known : List Term) :
    s.load t 8 known = .ok (s.byteAt addr) := by
  have haddr : addr < addressSpace := (Term.addressValue?_eq_some_iff.1 ht).2
  have hjoined : s.joinBytes addr (bytesFor 8) = .ok (s.byteAt addr) := by
    change Except.ok (s.byteAt (addressAt addr 0)) = _
    rw [addressAt, Nat.add_zero, Nat.mod_eq_of_lt haddr]
  have hwhole : Build.resize 8 (s.byteAt addr) = .ok (s.byteAt addr) := if_pos hwidth
  rw [load, if_neg (by decide), resolveAddress?, ht]
  dsimp only
  rw [loadConcrete, if_neg (by decide), hjoined, ok_bind, hwhole]
  rfl

/-- A store at a known address splits its value into bytes. -/
theorem storeConcrete_eq {value : Term} (h : value.HasSort (.bitVec w)) (addr : Nat) :
    s.storeConcrete addr value = .ok (s.setBytes addr (Fold.toBytes s.order value)) := by
  rw [storeConcrete, Build.toBytes_ok (h.width_eq ▸ h.width_le)]
  rfl

theorem store_eq {place value : Term} {addr : Nat} (h : place.addressValue? = some addr) :
    s.store place value = Failure.ofFault (s.storeConcrete addr value) := by
  rw [store, resolveAddress?, h]

theorem store_error {place : Term} (h : place.addressValue? = none) (value : Term) :
    s.store place value = .error (.symbolicAddress place) := by
  rw [store, resolveAddress?, h]
  rfl

/-- A value that was stored is loaded back. -/
theorem exists_load_stored {value : Term} (hvalue : value.HasSort (.bitVec w)) (addr : BitVec 64) :
    ∃ t, (s.setBytes addr.toNat (Fold.toBytes s.order value)).loadConcrete addr.toNat w = .ok t ∧
      ∀ {m : Model} {x : BitVec w}, value.Denotes m x → t.Denotes m x := by
  have hmax : Word.maxBits = 128 := rfl
  have hw := hvalue.width_le
  have hpos := hvalue.width_pos
  have hcount := bytesFor_le hw
  have hlength : (Fold.toBytes s.order value).length = bytesFor w := by
    rw [Fold.length_toBytes, hvalue.width_eq]
  have hread : ((List.range (bytesFor w)).map fun i =>
      (s.setBytes addr.toNat (Fold.toBytes s.order value)).byteAt (addressAt addr.toNat i)) =
        Fold.toBytes s.order value := by
    refine List.ext_getElem (by simp [hlength]) fun i _ hi => ?_
    rw [List.getElem_map, List.getElem_range, addressAt_toNat]
    exact byteAt_setBytes_inside (by omega) i hi
  have hcells := List.forall_mem_map.1 (hread ▸ Fold.hasSort_toBytes s.order hvalue)
  refine ⟨_, loadConcrete_eq (fun i hi => hcells i (List.mem_range.2 hi)) hpos hw,
    fun {m x} h => ?_⟩
  have hjoined := denotes_joined_cells (hread ▸ Fold.denotes_toBytes s.order h)
    (bytesFor_pos hpos) hcount
  rw [order_setBytes] at hjoined
  refine (Fold.denotes_resize hjoined hpos hw).congr rfl ?_
  rw [BitVec.toNat_setWidth, ByteOrder.toNat_joined, ByteOrder.number_bytesOf,
    Nat.mod_eq_of_lt x.isLt]

/-- The value of a store is written to the array. -/
theorem wrote_storeConcrete {value : Term} {x : BitVec w} (h : value.Denotes m x)
    (addr : BitVec 64) :
    Wrote (s.flat m) ((s.setBytes addr.toNat (Fold.toBytes s.order value)).flat m) addr
      (s.order.bytesOf x) := by
  have hmax : Word.maxBits = 128 := rfl
  have hcount := bytesFor_le h.width_le
  refine wrote_setBytes (Fold.denotes_toBytes s.order h) ?_ addr
  rw [ByteOrder.length_bytesOf]
  omega

/-- A load of whole bytes out of what was stored gives the bits there. -/
theorem denotes_load_part {order : ByteOrder} {before : FlatMemory} {x : BitVec w}
    {addr : BitVec 64} (hs : s.CellsWellFormed) (hm : m.Total) (horder : s.order = order)
    (h : Wrote before (s.flat m) addr (order.bytesOf x)) (le : w ≤ Word.maxBits)
    (start v : Nat) (pos : 0 < v) (hpart : start + bytesFor v ≤ bytesFor w) :
    ∃ t, s.loadConcrete (place addr start).toNat v = .ok t ∧
      t.Denotes m (x.extractLsb' (8 * order.lowest (bytesFor w) start (bytesFor v)) v) := by
  subst horder
  have hmax : Word.maxBits = 128 := rfl
  have hv : v ≤ 8 * bytesFor v ∧ v ≤ 128 := by
    simp only [bytesFor] at hpart ⊢
    omega
  obtain ⟨t, hload, ht⟩ := denotes_loadConcrete hs hm (place addr start) pos hv.2
  refine ⟨t, hload, ht.congr rfl ?_⟩
  have hread := h.read_eq start (bytesFor v) (by rwa [ByteOrder.length_bytesOf])
  have hdvd : 2 ^ v ∣ 256 ^ bytesFor v := by
    rw [show (256 : Nat) = 2 ^ 8 from rfl, ← Nat.pow_mul]
    exact Nat.pow_dvd_pow 2 hv.1
  rw [hread, ByteOrder.number_slice_bytesOf s.order x hpart, BitVec.toNat_ofNat,
    BitVec.extractLsb'_toNat, Nat.mod_mod_of_dvd _ hdvd]

/-! ## Runs -/

/-- An access to a store. -/
inductive Access where
  /-- Known bytes are written. -/
  | storeBytes (addr : BitVec 64) (data : List UInt8)
  | storeConcrete (addr : BitVec 64) (value : Term)
  | store (addr value : Term)
  | loadConcrete (addr : BitVec 64) (width : Nat)
  | load (addr : Term) (width : Nat) (known : List Term)

/-- A value that is written is a well-formed bit-vector. -/
def Access.WellFormed : Access → Prop
  | .storeConcrete _ value | .store _ value => ∃ w, value.HasSort (.bitVec w)
  | .storeBytes .. | .loadConcrete .. | .load .. => True

/-- The store after an access.  One that fails leaves the store as it was,
and so does a load. -/
def access (s : ByteStore) : Access → ByteStore
  | .storeBytes addr data => s.storeBytes addr.toNat data
  | .storeConcrete addr value => (s.storeConcrete addr.toNat value).toOption.getD s
  | .store addr value => (s.store addr value).toOption.getD s
  | .loadConcrete .. | .load .. => s

/-- The store after a run of accesses. -/
def run (s : ByteStore) (accesses : List Access) : ByteStore := accesses.foldl access s

/-- An access keeps the cells well formed. -/
theorem cellsWellFormed_access (hs : s.CellsWellFormed) {a : Access} (ha : a.WellFormed) :
    (s.access a).CellsWellFormed ∧ (s.access a).order = s.order := by
  cases a with
  | storeBytes addr data =>
    refine ⟨cellsWellFormed_setBytes hs (fun t ht => ?_) _, order_setBytes ..⟩
    obtain ⟨b, -, rfl⟩ := List.mem_map.1 ht
    exact Fold.hasSort_lit (by decide) (by decide)
  | storeConcrete addr value =>
    obtain ⟨w, hvalue⟩ := ha
    rw [access, storeConcrete_eq hvalue]
    exact ⟨cellsWellFormed_setBytes hs (Fold.hasSort_toBytes _ hvalue) _, order_setBytes ..⟩
  | store place value =>
    obtain ⟨w, hvalue⟩ := ha
    cases hplace : place.addressValue? with
    | none =>
      rw [access, store_error hplace]
      exact ⟨hs, rfl⟩
    | some addr =>
      rw [access, store_eq hplace, storeConcrete_eq hvalue]
      exact ⟨cellsWellFormed_setBytes hs (Fold.hasSort_toBytes _ hvalue) _, order_setBytes ..⟩
  | loadConcrete | load => exact ⟨hs, rfl⟩

theorem cellsWellFormed_run (hs : s.CellsWellFormed) {accesses : List Access}
    (h : ∀ a ∈ accesses, a.WellFormed) :
    (s.run accesses).CellsWellFormed ∧ (s.run accesses).order = s.order := by
  induction accesses generalizing s with
  | nil => exact ⟨hs, rfl⟩
  | cons a accesses ih =>
    obtain ⟨ha, haccesses⟩ := List.forall_mem_cons.1 h
    obtain ⟨hnext, horder⟩ := cellsWellFormed_access hs ha
    obtain ⟨hlast, horder'⟩ := ih hnext haccesses
    exact ⟨hlast, horder'.trans horder⟩

/-- A store of some byte order is the flat array that its cells hold. -/
structure RefinesFlat (m : Model) (order : ByteOrder) (s : ByteStore) : Prop where
  /-- Every cell is a well-formed byte, whose value the array holds. -/
  cells : ∀ addr : BitVec 64, (s.byteAt addr.toNat).HasSort (.bitVec 8) ∧
    (s.byteAt addr.toNat).Denotes m (s.flat m addr)
  /-- Raw bytes are written as they are. -/
  storeBytes : ∀ (addr : BitVec 64) (data : List UInt8), data.length ≤ 2 ^ 64 →
    Wrote (s.flat m) ((s.storeBytes addr.toNat data).flat m) addr (data.map UInt8.toBitVec)
  /-- A value is written as its bytes, at an address that is a number or a
  term that is a constant. -/
  store : ∀ (addr : BitVec 64) {w : Nat} {value : Term}, value.HasSort (.bitVec w) →
    ∃ (after : ByteStore) (x : BitVec w), value.Denotes m x ∧
      s.storeConcrete addr.toNat value = .ok after ∧
      (∀ place, place.addressValue? = some addr.toNat → s.store place value = .ok after) ∧
      Wrote (s.flat m) (after.flat m) addr (order.bytesOf x)
  /-- A store at any other term fails, and then nothing changes. -/
  store_error : ∀ (place value : Term), place.addressValue? = none →
    s.store place value = .error (.symbolicAddress place) ∧ s.access (.store place value) = s
  /-- A load gives the number that the bytes hold. -/
  load : ∀ (addr : BitVec 64) {w : Nat}, 0 < w → w ≤ 128 →
    ∃ t, s.loadConcrete addr.toNat w = .ok t ∧
      t.Denotes m (BitVec.ofNat w (order.number ((s.flat m).read addr (bytesFor w))))
  /-- A load gives back what was stored, and a load of whole bytes out of it
  gives the bits there. -/
  load_store : ∀ (addr : BitVec 64) {w : Nat} {value : Term} {x : BitVec w},
    value.HasSort (.bitVec w) → value.Denotes m x →
    ∃ after, s.storeConcrete addr.toNat value = .ok after ∧
      (∃ t, after.loadConcrete addr.toNat w = .ok t ∧ t.Denotes m x) ∧
      ∀ start v, 0 < v → start + bytesFor v ≤ bytesFor w →
        ∃ t, after.loadConcrete (place addr start).toNat v = .ok t ∧
          t.Denotes m (x.extractLsb' (8 * order.lowest (bytesFor w) start (bytesFor v)) v)

theorem refinesFlat (hs : s.CellsWellFormed) (hm : m.Total) : RefinesFlat m s.order s where
  cells := fun addr => ⟨hs addr.toNat, denotes_flat hs hm addr⟩
  storeBytes := by
    intro addr data hlen
    exact wrote_setBytes (denotes_data m data) (by rwa [List.length_map]) addr
  store := by
    intro addr w value hvalue
    obtain ⟨x, hx⟩ := hvalue.exists_denotes hm
    refine ⟨_, x, hx, storeConcrete_eq hvalue _, fun place hplace => ?_,
      wrote_storeConcrete hx addr⟩
    rw [store_eq hplace, storeConcrete_eq hvalue]
    rfl
  store_error := by
    intro place value hplace
    refine ⟨store_error hplace value, ?_⟩
    rw [access, store_error hplace]
    rfl
  load := fun addr _ pos le => denotes_loadConcrete hs hm addr pos le
  load_store := by
    intro addr w value x hvalue hx
    have hafter : (s.setBytes addr.toNat (Fold.toBytes s.order value)).CellsWellFormed :=
      cellsWellFormed_setBytes hs (Fold.hasSort_toBytes _ hvalue) _
    have horder := order_setBytes s addr.toNat (Fold.toBytes s.order value)
    have hwrote := wrote_storeConcrete (s := s) hx addr
    have hparts := denotes_load_part hafter hm horder hwrote hx.width_le
    refine ⟨_, storeConcrete_eq hvalue _, ?_, hparts⟩
    obtain ⟨t, hload, ht⟩ := hparts 0 w hvalue.width_pos (by omega)
    have hplace : place addr 0 = addr := BitVec.add_zero addr
    have hlowest : s.order.lowest (bytesFor w) 0 (bytesFor w) = 0 := by
      cases s.order with
      | little => rfl
      | big => rw [ByteOrder.lowest, Nat.sub_zero, Nat.sub_self]
    rw [hplace] at hload
    refine ⟨t, hload, ht.congr rfl ?_⟩
    rw [hlowest, Nat.mul_zero, BitVec.extractLsb'_toNat, Nat.shiftRight_zero,
      Nat.mod_eq_of_lt x.isLt]

/-- Whatever accesses were made to an empty store, it is a flat array under
every model. -/
theorem run_refinesFlat (name : String) (order : ByteOrder) {accesses : List Access}
    (h : ∀ a ∈ accesses, a.WellFormed) (hm : m.Total) :
    RefinesFlat m order ((empty name order).run accesses) := by
  obtain ⟨hcells, horder⟩ := cellsWellFormed_run (cellsWellFormed_empty name order) h
  have hrefines := refinesFlat hcells hm
  rwa [horder] at hrefines

/-- A value that wraps around the end of the address space, and one of twelve
bits over its upper half. -/
theorem run_refinesFlat_wrapping :
    let accesses : List Access :=
      [.storeConcrete (-2) (.const 0x11223344 32), .store (.const 0 64) (.var "x" 12)]
    let m : Model := fun _ => some 0x105
    let s := (empty "reg" .little).run accesses
    RefinesFlat m .little s ∧ (s.flat m).read (-2) 4 = [0x44, 0x33, 0x05, 0x01] := by
  intro accesses m s
  have hwellFormed : ∀ a ∈ accesses, a.WellFormed := by
    intro a ha
    simp only [accesses, List.mem_cons, List.not_mem_nil, or_false] at ha
    rcases ha with rfl | rfl
    · exact ⟨32, .const (by decide) (by decide) (by decide)⟩
    · exact ⟨12, .var "x" (by decide) (by decide)⟩
  refine ⟨run_refinesFlat "reg" .little hwellFormed fun _ => ⟨_, rfl⟩, ?_⟩
  decide +kernel

end ByteStore

end SymLift
