import SymLift.ByteStore
import SymLift.Proofs.Denotation

/-!
# Bytes and numbers

A list of bytes is a number in either byte order, and a bit-vector is a list
of bytes.

* `ByteOrder.number` is the number that bytes at rising addresses hold, and
  `ByteOrder.bytesOf` gives the bytes of a bit-vector.
* `number_slice_bytesOf`: a run of the bytes of a bit-vector holds a run of
  its bits.
* `Fold.denotes_toBytes`: a term is split into the bytes of its value.
* `ByteStore.denotes_joinBytes`: bytes are joined into the number they hold.
* `Fold.denotes_reverseBytes`: reversing the bytes of a term changes the
  order in which they are read.
-/

namespace SymLift

/-! ## Numbers of bytes -/

theorem le_bytesFor (w : Nat) : w ≤ 8 * bytesFor w := by
  unfold bytesFor
  omega

theorem bytesFor_pos {w : Nat} (pos : 0 < w) : 0 < bytesFor w := by
  have hle := le_bytesFor w
  omega

/-- The bytes of a word fit in the widest word. -/
theorem bytesFor_le {w : Nat} (le : w ≤ Word.maxBits) : 8 * bytesFor w ≤ Word.maxBits := by
  have hmax : Word.maxBits = 128 := rfl
  unfold bytesFor
  omega

theorem bytesFor_of_dvd {w : Nat} (h : 8 ∣ w) : 8 * bytesFor w = w := by
  unfold bytesFor
  omega

/-! ## Lists of bytes -/

namespace ByteOrder

/-- The number that bytes at rising addresses hold. -/
def number : ByteOrder → List (BitVec 8) → Nat
  | .little, bytes => Nat.ofDigits 256 (bytes.map BitVec.toNat)
  | .big, bytes => Nat.ofDigits 256 (bytes.reverse.map BitVec.toNat)

/-- The bytes of a bit-vector at rising addresses.  A bit-vector that does
not fill its last byte is zero-extended. -/
def bytesOf {w : Nat} : ByteOrder → BitVec w → List (BitVec 8)
  | .little, x => (List.range (bytesFor w)).map fun i => x.extractLsb' (8 * i) 8
  | .big, x => ((List.range (bytesFor w)).map fun i => x.extractLsb' (8 * i) 8).reverse

/-- The weight, in bytes, of the last of `count` bytes that follow the first
`start` of `total` bytes. -/
def lowest : ByteOrder → (total start count : Nat) → Nat
  | .little, _, start, _ => start
  | .big, total, start, count => total - start - count

variable {w : Nat}

theorem number_big (bytes : List (BitVec 8)) :
    number .big bytes = number .little bytes.reverse := rfl

theorem length_bytesOf (order : ByteOrder) (x : BitVec w) :
    (order.bytesOf x).length = bytesFor w := by
  cases order <;> simp [bytesOf]

theorem number_lt (order : ByteOrder) (bytes : List (BitVec 8)) :
    order.number bytes < 256 ^ bytes.length := by
  have hlittle : ∀ bytes : List (BitVec 8), number .little bytes < 256 ^ bytes.length := by
    intro bytes
    have h :=
      Nat.ofDigits_lt_base_pow_length (b := 256) (l := bytes.map BitVec.toNat) (by decide) ?_
    · rwa [List.length_map] at h
    · intro digit hdigit
      obtain ⟨byte, -, rfl⟩ := List.mem_map.1 hdigit
      exact byte.isLt
  cases order with
  | little => exact hlittle bytes
  | big => simpa [number_big] using hlittle bytes.reverse

/-- Bytes from the one of weight `256 ^ start` upwards hold the bits from
there upwards. -/
theorem number_extract (x : BitVec w) (start count : Nat) :
    number .little ((List.range count).map fun i => x.extractLsb' (8 * (start + i)) 8) =
      (x.toNat >>> (8 * start)) % 256 ^ count := by
  induction count with
  | zero => simp [number, Nat.mod_one]
  | succ count ih =>
    rw [number] at ih ⊢
    rw [List.range_succ, List.map_append, List.map_append, Nat.ofDigits_append, ih,
      Nat.pow_succ, Nat.mod_mul]
    simp only [List.length_map, List.length_range, List.map_cons, List.map_nil,
      Nat.ofDigits_singleton, BitVec.extractLsb'_toNat]
    rw [Nat.mul_add, Nat.shiftRight_add, Nat.shiftRight_eq_div_pow _ (8 * count), Nat.pow_mul]

/-- A run of the bytes of a bit-vector, the least significant first. -/
theorem slice_bytesOf_little (x : BitVec w) {start count : Nat} (h : start + count ≤ bytesFor w) :
    ((bytesOf .little x).drop start).take count =
      (List.range count).map fun i => x.extractLsb' (8 * (start + i)) 8 := by
  refine List.ext_getElem ?_ fun i _ _ => ?_
  · simp only [bytesOf, List.length_take, List.length_drop, List.length_map, List.length_range]
    omega
  · simp only [bytesOf, List.getElem_take, List.getElem_drop, List.getElem_map, List.getElem_range]

/-- A run of the bytes of a bit-vector, the most significant first. -/
theorem slice_bytesOf_big (x : BitVec w) {start count : Nat} (h : start + count ≤ bytesFor w) :
    (((bytesOf .big x).drop start).take count).reverse =
      (List.range count).map fun i =>
        x.extractLsb' (8 * (lowest .big (bytesFor w) start count + i)) 8 := by
  refine List.ext_getElem ?_ fun i hi _ => ?_
  · simp only [bytesOf, List.length_reverse, List.length_take, List.length_drop, List.length_map,
      List.length_range]
    omega
  · simp only [bytesOf, List.length_reverse, List.length_take, List.length_drop, List.length_map,
      List.length_range] at hi
    simp only [bytesOf, lowest, List.getElem_reverse, List.getElem_take, List.getElem_drop,
      List.getElem_map, List.getElem_range, List.length_reverse, List.length_take,
      List.length_drop, List.length_map, List.length_range]
    congr 2
    omega

/-- A run of the bytes of a bit-vector holds a run of its bits. -/
theorem number_slice_bytesOf (order : ByteOrder) (x : BitVec w) {start count : Nat}
    (h : start + count ≤ bytesFor w) :
    order.number (((order.bytesOf x).drop start).take count) =
      (x.toNat >>> (8 * order.lowest (bytesFor w) start count)) % 256 ^ count := by
  cases order with
  | little => rw [slice_bytesOf_little x h, number_extract, lowest]
  | big => rw [number_big, slice_bytesOf_big x h, number_extract]

/-- The bytes of a bit-vector hold its number. -/
theorem number_bytesOf (order : ByteOrder) (x : BitVec w) :
    order.number (order.bytesOf x) = x.toNat := by
  have hall := number_slice_bytesOf order x (Nat.le_of_eq (Nat.zero_add (bytesFor w)))
  have hlowest : order.lowest (bytesFor w) 0 (bytesFor w) = 0 := by
    cases order with
    | little => rfl
    | big => rw [lowest, Nat.sub_zero, Nat.sub_self]
  have hlt : x.toNat < 256 ^ bytesFor w := by
    have hle : 2 ^ w ≤ 2 ^ (8 * bytesFor w) := Nat.pow_le_pow_right (by decide) (le_bytesFor w)
    rw [Nat.pow_mul] at hle
    exact x.isLt.trans_le hle
  rwa [List.drop_zero, List.take_of_length_le (Nat.le_of_eq (length_bytesOf order x)), hlowest,
    Nat.mul_zero, Nat.shiftRight_zero, Nat.mod_eq_of_lt hlt] at hall

/-- The bit-vector that bytes at rising addresses hold. -/
def joined (order : ByteOrder) (bytes : List (BitVec 8)) : BitVec (8 * bytes.length) :=
  BitVec.ofNat _ (order.number bytes)

theorem toNat_joined (order : ByteOrder) (bytes : List (BitVec 8)) :
    (order.joined bytes).toNat = order.number bytes := by
  have hlt := order.number_lt bytes
  rw [joined, BitVec.toNat_ofNat, Nat.pow_mul, Nat.mod_eq_of_lt hlt]

theorem number_singleton (order : ByteOrder) (b : BitVec 8) : order.number [b] = b.toNat := by
  cases order <;> rfl

/-- Equally many bytes that hold one number are the same bytes. -/
theorem number_inj (order : ByteOrder) {bytes others : List (BitVec 8)}
    (hlength : bytes.length = others.length) :
    order.number bytes = order.number others ↔ bytes = others := by
  have hlittle {bytes others : List (BitVec 8)} (hlength : bytes.length = others.length)
      (h : number .little bytes = number .little others) : bytes = others := by
    have hdigits : ∀ l : List (BitVec 8), ∀ digit ∈ l.map BitVec.toNat, digit < 256 := by
      intro l digit hdigit
      obtain ⟨byte, -, rfl⟩ := List.mem_map.1 hdigit
      exact byte.isLt
    have hmap := Nat.ofDigits_inj_of_len_eq (by decide)
      (by rw [List.length_map, List.length_map, hlength]) (hdigits _) (hdigits _) h
    exact List.map_injective_iff.2 (fun _ _ => BitVec.eq_of_toNat_eq) hmap
  refine ⟨fun h => ?_, congrArg _⟩
  cases order with
  | little => exact hlittle hlength h
  | big => exact List.reverse_injective (hlittle (by simpa using hlength) h)

/-- The bytes of what bytes hold are those bytes. -/
theorem bytesOf_joined (bytes : List (BitVec 8)) :
    bytesOf .little (joined .little bytes) = bytes := by
  refine (number_inj .little ?_).1
    ((number_bytesOf .little (joined .little bytes)).trans (toNat_joined .little bytes))
  rw [length_bytesOf, bytesFor]
  omega

end ByteOrder

/-! ## The bytes of a term -/

namespace Fold

open Term

variable {m : Model} {arg : Term} {w : Nat} {x : BitVec w}

theorem denotes_byte (index : Nat) (h : arg.Denotes m x) (le : index * 8 + 8 ≤ w) :
    (byte arg index).Denotes m (x.extractLsb' (8 * index) 8) := by
  have hbits : (byte arg index).Denotes m (x.extractLsb' (index * 8) _) :=
    denotes_extract (by omega) (by omega) h
  refine hbits.congr (by omega) ?_
  rw [BitVec.extractLsb'_toNat, BitVec.extractLsb'_toNat, Nat.mul_comm 8,
    show index * 8 + 7 - index * 8 + 1 = 8 by omega]

/-- A term is split into the bytes of its value. -/
theorem denotes_splitBytes (h : arg.Denotes m x) :
    List.Forall₂ (fun t b => t.Denotes m b) (splitBytes arg) (ByteOrder.bytesOf .little x) := by
  have hwide := le_bytesFor w
  have hcount := bytesFor_le h.width_le
  rw [splitBytes, ByteOrder.bytesOf, h.width_eq]
  rw [List.forall₂_map_left_iff, List.forall₂_map_right_iff, List.forall₂_same]
  intro i hi
  rw [List.mem_range] at hi
  have hpadded := denotes_resize (v := bytesFor w * 8) h (by omega) (by omega)
  refine (denotes_byte i hpadded (by omega)).congr rfl ?_
  rw [BitVec.extractLsb'_toNat, BitVec.extractLsb'_toNat, BitVec.toNat_setWidth_of_le (by omega)]

theorem denotes_toBytes (order : ByteOrder) (h : arg.Denotes m x) :
    List.Forall₂ (fun t b => t.Denotes m b) (toBytes order arg) (order.bytesOf x) := by
  cases order with
  | little => exact denotes_splitBytes h
  | big => exact List.rel_reverse (denotes_splitBytes h)

theorem hasSort_byte (index : Nat) (h : arg.HasSort (.bitVec w)) (le : index * 8 + 8 ≤ w) :
    (byte arg index).HasSort (.bitVec 8) := by
  have hbits : (byte arg index).HasSort (.bitVec (index * 8 + 7 - index * 8 + 1)) :=
    hasSort_extract (by omega) (by omega) h
  rwa [show index * 8 + 7 - index * 8 + 1 = 8 by omega] at hbits

/-- A well-formed term is split into well-formed bytes. -/
theorem hasSort_toBytes (order : ByteOrder) (h : arg.HasSort (.bitVec w)) :
    ∀ t ∈ toBytes order arg, t.HasSort (.bitVec 8) := by
  have hsplit : ∀ t ∈ splitBytes arg, t.HasSort (.bitVec 8) := by
    have hcount := bytesFor_le h.width_le
    intro t ht
    rw [splitBytes, h.width_eq] at ht
    obtain ⟨i, hi, rfl⟩ := List.mem_map.1 ht
    rw [List.mem_range] at hi
    exact hasSort_byte i (hasSort_resize (v := bytesFor w * 8) h (by omega) (by omega)) (by omega)
  cases order with
  | little => exact hsplit
  | big => exact fun t ht => hsplit t (List.mem_reverse.1 ht)

theorem length_toBytes (order : ByteOrder) (arg : Term) :
    (toBytes order arg).length = bytesFor arg.width := by
  cases order <;> simp [toBytes, splitBytes]

theorem hasSort_concatAll {first : Term} {rest : List Term} {v : Nat}
    (hfirst : first.HasSort (.bitVec v)) (hrest : ∀ t ∈ rest, t.HasSort (.bitVec 8))
    (le : v + 8 * rest.length ≤ Word.maxBits) :
    (concatAll first rest).HasSort (.bitVec (v + 8 * rest.length)) := by
  induction rest generalizing first v with
  | nil => exact hfirst
  | cons t rest ih =>
    obtain ⟨ht, hrest⟩ := List.forall_mem_cons.1 hrest
    rw [List.length_cons] at le ⊢
    have hall := ih (hasSort_concat hfirst ht (by omega)) hrest (by omega)
    rwa [show v + 8 * (rest.length + 1) = v + 8 + 8 * rest.length by omega]

theorem hasSort_reverseBytes (h : arg.HasSort (.bitVec w)) :
    (reverseBytes arg).HasSort (.bitVec w) := by
  have hw := h.width_le
  rw [reverseBytes, h.width_eq]
  split
  · exact h
  · rename_i hwhole
    have hbytes : ∀ t ∈ (List.range' 1 (w / 8 - 1)).map (byte arg), t.HasSort (.bitVec 8) := by
      rw [List.forall_mem_map]
      intro i hi
      rw [List.mem_range'_1] at hi
      exact hasSort_byte i h (by omega)
    have hall := hasSort_concatAll (hasSort_byte 0 h (by omega)) hbytes
      (by rw [List.length_map, List.length_range']; omega)
    rwa [List.length_map, List.length_range', show 8 + 8 * (w / 8 - 1) = w by omega] at hall

/-- A well-formed term is put into the order of an access. -/
theorem hasSort_fixOrder (order : ByteOrder) (h : arg.HasSort (.bitVec w)) :
    ∃ t, Build.fixOrder order arg = .ok t ∧ t.HasSort (.bitVec w) := by
  cases order with
  | big => exact ⟨arg, rfl, h⟩
  | little => exact ⟨_, Build.reverseBytes_ok (h.width_eq ▸ h.width_le), hasSort_reverseBytes h⟩

end Fold

namespace ByteStore

open Term

variable {m : Model} {lower byte : Term} {b : BitVec 8} {bytes more : List (BitVec 8)}

/-- A byte at the next address is joined to those before it. -/
theorem denotes_joinByte (order : ByteOrder) (hl : lower.Denotes m (order.joined bytes))
    (hb : byte.Denotes m b) (le : 8 * (bytes.length + 1) ≤ Word.maxBits) :
    (joinByte order lower byte).Denotes m (order.joined (bytes ++ [b])) := by
  have hlength : (bytes ++ [b]).length = bytes.length + 1 := by simp
  have hlt := order.number_lt bytes
  cases order with
  | little =>
    refine (Fold.denotes_concat hb hl (by omega)).congr (by omega) ?_
    rw [BitVec.toNat_append, ByteOrder.toNat_joined, ByteOrder.toNat_joined,
      ← Nat.shiftLeft_add_eq_or_of_lt (by rw [Nat.pow_mul]; exact hlt), Nat.shiftLeft_eq,
      Nat.pow_mul]
    rw [ByteOrder.number, ByteOrder.number, List.map_append, Nat.ofDigits_append, List.length_map,
      List.map_singleton, Nat.ofDigits_singleton]
    ring
  | big =>
    refine (Fold.denotes_concat hl hb (by omega)).congr (by omega) ?_
    rw [BitVec.toNat_append, ByteOrder.toNat_joined, ByteOrder.toNat_joined,
      ← Nat.shiftLeft_add_eq_or_of_lt b.isLt, Nat.shiftLeft_eq]
    rw [ByteOrder.number, ByteOrder.number, List.reverse_append, List.map_append,
      List.reverse_singleton, List.map_singleton, Nat.ofDigits_append, List.length_singleton,
      Nat.ofDigits_singleton]
    ring

theorem denotes_foldl_joinByte (order : ByteOrder) {terms : List Term}
    (hl : lower.Denotes m (order.joined bytes))
    (h : List.Forall₂ (fun t b => t.Denotes m b) terms more)
    (le : 8 * (bytes.length + more.length) ≤ Word.maxBits) :
    (terms.foldl (joinByte order) lower).Denotes m (order.joined (bytes ++ more)) := by
  induction h generalizing lower bytes with
  | nil => rwa [List.append_nil]
  | @cons t b ts bs ht _ ih =>
    rw [List.length_cons] at le
    have hnext := denotes_joinByte order hl ht (by omega)
    have hlength : (bytes ++ [b]).length = bytes.length + 1 := by simp
    have hrest := ih hnext (by omega)
    rwa [List.append_assoc, List.singleton_append] at hrest

/-- Bytes at rising addresses are joined into what they hold. -/
theorem denotes_joinBytes (order : ByteOrder) {terms : List Term} (hb : byte.Denotes m b)
    (h : List.Forall₂ (fun t b => t.Denotes m b) terms more)
    (le : 8 * (more.length + 1) ≤ Word.maxBits) :
    (terms.foldl (joinByte order) byte).Denotes m (order.joined (b :: more)) := by
  have hfirst : byte.Denotes m (order.joined [b]) := by
    refine hb.congr rfl ?_
    rw [ByteOrder.toNat_joined]
    cases order <;> exact Nat.ofDigits_singleton.symm
  refine denotes_foldl_joinByte order hfirst h ?_
  rw [List.length_singleton]
  omega

end ByteStore

namespace Fold

open Term

variable {m : Model} {arg : Term} {bytes : List (BitVec 8)}

/-- The bytes of a term that holds them, the least significant first. -/
theorem denotes_bytes (h : arg.Denotes m (ByteOrder.little.joined bytes)) :
    List.Forall₂ (fun t b => t.Denotes m b) ((List.range bytes.length).map (byte arg)) bytes := by
  have hcount : bytesFor (8 * bytes.length) = bytes.length :=
    Nat.eq_of_mul_eq_mul_left (by decide) (bytesFor_of_dvd (Nat.dvd_mul_right 8 bytes.length))
  have hbytes := ByteOrder.bytesOf_joined bytes
  rw [ByteOrder.bytesOf, hcount] at hbytes
  conv => arg 3; rw [← hbytes]
  rw [List.forall₂_map_left_iff, List.forall₂_map_right_iff, List.forall₂_same]
  intro i hi
  rw [List.mem_range] at hi
  exact denotes_byte i h (by omega)

theorem reverse_eq_of_length_le_one {α : Type} {l : List α} (h : l.length ≤ 1) : l.reverse = l := by
  match l, h with
  | [], _ => rfl
  | [_], _ => rfl

/-- Reversing bytes that were read in one order reads them in the other. -/
theorem denotes_reverseBytes (h : arg.Denotes m (ByteOrder.big.joined bytes)) :
    (reverseBytes arg).Denotes m (ByteOrder.little.joined bytes) := by
  have hw := h.width_le
  have hlength : bytes.reverse.length = bytes.length := List.length_reverse
  have hreversed : arg.Denotes m (ByteOrder.little.joined bytes.reverse) :=
    h.congr (by rw [hlength]) (by rw [ByteOrder.toNat_joined, ByteOrder.toNat_joined]; rfl)
  rw [reverseBytes, h.width_eq]
  split
  · -- At most one byte: there is nothing to reverse.
    rename_i hshort
    rwa [reverse_eq_of_length_le_one (by omega)] at hreversed
  · rename_i hlong
    obtain ⟨count, hn⟩ : ∃ count, bytes.length = count + 1 := ⟨bytes.length - 1, by omega⟩
    have hparts := denotes_bytes hreversed
    rw [hlength, hn, List.range_eq_range', List.range'_succ, List.map_cons,
      Nat.zero_add] at hparts
    rw [show 8 * bytes.length / 8 - 1 = count by omega]
    obtain ⟨b, bs, hb, hbs, heq⟩ := List.forall₂_cons_left_iff.1 hparts
    have hlen : bs.length + 1 = bytes.length := by rw [← hlength, heq, List.length_cons]
    have hjoined := ByteStore.denotes_joinBytes .big hb hbs (by rw [hlen]; exact hw)
    refine hjoined.congr (by rw [List.length_cons, hlen]) ?_
    rw [ByteOrder.toNat_joined, ByteOrder.toNat_joined, ByteOrder.number_big, ← heq,
      List.reverse_reverse]

end Fold

end SymLift
