import SymLift.Proofs.Addresses
import SymLift.Proofs.StringOutput

/-!
# Pointers that the path pins

A constraint that equates a pointer with a constant pins it.  A summary does not
load through the pointer but through its sums with the indices of the bytes,
the index zero included, and a load looks for a constraint on the very term
that it goes through.  So it takes a constraint on each sum for the pointer to
act as the constant.

* `Strlen.byteOf_pointer`: the byte at an index is that of the constant if its
  sum is pinned, and a variable that stands in for it if not.
* `Strlen.scanFrom_congr`: a search depends on the bytes that it covers.
* `Strlen.runOn_run_congr`: so does `strlen`, but for the pointer that it names
  when the string is too long.
* `Summary.writeBuffer_cases`: how a write ends does not depend on the buffer.
* `Summary.pinned_pointer` puts these together, and
  `Summary.pinned_pointer_alone` says that pinning the pointer is not enough.
-/

namespace SymLift

namespace Strlen

open Fold ByteStore

variable {s : PathState} {p : Term} {addr : Nat} {m : Model} {config : Config}

/-! ## The bytes behind a pointer -/

/-- Some constraint equates the sum of a pointer and an index with a
constant. -/
def pinsSum (s : PathState) (p : Term) (index : Nat) : Bool :=
  s.constraints.any fun c => (pinnedBy? (binary .add p (s.word index)) c).isSome

/-- The variable that stands in for a byte behind a pointer. -/
def standIn (s : PathState) (p : Term) (index : Nat) : Term :=
  .var (s.memory.unresolvedName (binary .add p (s.word index)) 8) 8

/-- The byte behind a pointer that is pinned to an address. -/
def byteThrough (s : PathState) (p : Term) (addr index : Nat) : Term :=
  if pinsSum s p index then stringByte s addr index else standIn s p index

theorem load_of_resolved {store : ByteStore} {t : Term} {known : List Term} {a : Nat}
    (hwidth : (store.byteAt a).width = 8) (h : resolveAddress? t known = some a) :
    store.load t 8 known = .ok (store.byteAt a) := by
  have hlt := lt_of_resolveAddress? h
  have hconst : (Term.const a 64).addressValue? = some a := if_pos hlt
  have hload := load_byte hwidth hconst known
  rw [load_of_resolveAddress? _ (resolveAddress?_const hlt 64 known) (by decide)] at hload
  rw [load_of_resolveAddress? _ h (by decide), hload]

theorem byteOf_eq_load (hp : p.HasSort (.bitVec s.guest.wordBits)) (index : Nat) :
    byteOf s p index =
      s.memory.load (binary .add p (s.word index)) 8 s.constraints := by
  have hindex : (s.word index).width = s.guest.wordBits := rfl
  rw [byteOf, Build.binary_ok (hp.width_eq.trans hindex.symm)]
  rfl

/-- A sum with a term that is no constant is no constant. -/
theorem resolveAddress?_sum (hconst : ¬p.isConstant) (index : Nat) :
    resolveAddress? (binary .add p (s.word index)) s.constraints =
      s.constraints.findSome? (pinnedBy? (binary .add p (s.word index))) := by
  have hnone : p.constValue? = none := by
    rw [← Option.not_isSome_iff_eq_none]
    exact mt Term.isConstant_of_constValue? hconst
  have hnode : binary .add p (s.word index) = .binary .add p (s.word index) := by
    rw [binary, hnone]
  rw [hnode]
  rfl

theorem isSome_resolveAddress?_sum (hconst : ¬p.isConstant) (index : Nat) :
    (resolveAddress? (binary .add p (s.word index)) s.constraints).isSome = pinsSum s p index := by
  rw [resolveAddress?_sum hconst, List.isSome_findSome?]
  rfl

/-- Without a constraint on the sum, a load through it is not placed. -/
theorem byteOf_of_not_pinsSum (hp : p.HasSort (.bitVec s.guest.wordBits)) (hconst : ¬p.isConstant)
    {index : Nat} (h : pinsSum s p index = false) : byteOf s p index = .ok (standIn s p index) := by
  rw [← isSome_resolveAddress?_sum hconst, Option.isSome_eq_false_iff, Option.isNone_iff_eq_none]
    at h
  rw [byteOf_eq_load hp, load, if_neg (by decide), h]
  rfl

/-- A pointer that is equated with an address has it as its value. -/
theorem denotes_of_pinned (hp : p.HasSort (.bitVec s.guest.wordBits))
    (haddr : addr < 2 ^ s.guest.wordBits)
    (hpin : .compare .eq p (.const addr s.guest.wordBits) ∈ s.constraints) (hm : m.Total)
    (hold : ∀ c ∈ s.constraints, c.Decides m true) :
    p.Denotes m (BitVec.ofNat s.guest.wordBits addr) := by
  obtain ⟨x, hx⟩ := hp.exists_denotes hm
  have hnumber : p.HasNumber m addr :=
    (hasNumber_of_decides_eq (hold _ hpin) (.inr (Term.hasNumber_const rfl))).1
  have hvalue : x = BitVec.ofNat s.guest.wordBits addr := by
    apply BitVec.eq_of_toNat_eq
    rw [BitVec.toNat_ofNat, Nat.mod_eq_of_lt haddr]
    exact hx.hasNumber.unique hnumber
  exact hvalue ▸ hx

/-- A sum that is pinned is pinned to the address of its byte. -/
theorem resolveAddress?_sum_eq (hp : p.Denotes m (BitVec.ofNat s.guest.wordBits addr))
    (hold : ∀ c ∈ s.constraints, c.Decides m true) {index place : Nat}
    (h : resolveAddress? (binary .add p (s.word index)) s.constraints = some place) :
    place = (addr + index) % 2 ^ s.guest.wordBits := by
  have hindex : (s.word index).Denotes m (BitVec.ofNat s.guest.wordBits index) :=
    denotes_lit index s.guest.wordBits_le
  have hsum := (denotes_binary .add hp hindex).hasNumber.unique
    (hasNumber_of_resolveAddress? hold h)
  rw [← hsum, BinaryOp.onBits, BitVec.toNat_add, BitVec.toNat_ofNat, BitVec.toNat_ofNat,
    ← Nat.add_mod]

/-- The byte behind a pinned pointer is that of the constant if its sum is
pinned, and a variable that stands in for it if not. -/
theorem byteOf_pointer (hs : s.WellFormed) (hp : p.HasSort (.bitVec s.guest.wordBits))
    (hconst : ¬p.isConstant) (hvalue : p.Denotes m (BitVec.ofNat s.guest.wordBits addr))
    (hold : ∀ c ∈ s.constraints, c.Decides m true) (index : Nat) :
    byteOf s p index = .ok (byteThrough s p addr index) := by
  cases hpins : pinsSum s p index with
  | false =>
    rw [byteThrough, hpins, if_neg Bool.false_ne_true]
    exact byteOf_of_not_pinsSum hp hconst hpins
  | true =>
    rw [byteThrough, hpins, if_pos rfl]
    rw [← isSome_resolveAddress?_sum hconst, Option.isSome_iff_exists] at hpins
    obtain ⟨place, hplace⟩ := hpins
    have hbyte := load_of_resolved (hs.memory place).width_eq hplace
    rw [byteOf_eq_load hp, hbyte, stringByte, resolveAddress?_sum_eq hvalue hold hplace]

/-! ## Searches that cover the same bytes -/

section Search

variable {readByte readByte' : Nat → Except Failure Term} {window index : Nat} {allKnown : Bool}
  {found : List Term} {scan : Scan}

theorem length_le_of_scanFrom (fuel : Nat)
    (h : scanFrom readByte window fuel index allKnown found = .ok scan) :
    found.length ≤ scan.bytes.length := by
  induction fuel generalizing index allKnown found with
  | zero =>
    cases h
    rw [List.length_reverse]
  | succ fuel ih =>
    rw [scanFrom] at h
    split at h
    · split at h
      · cases h
      · split at h
        · cases h
          rw [List.length_reverse]
        · exact (Nat.le_succ _).trans (ih h)
        · exact (Nat.le_succ _).trans (ih h)
    · cases h
      rw [List.length_reverse]

/-- A search that goes on reads the byte here, so it covers it. -/
theorem lt_of_scanFrom {fuel : Nat} (hgoes : index < window ∨ allKnown = true)
    (hindex : found.length = index)
    (h : scanFrom readByte window (fuel + 1) index allKnown found = .ok scan) :
    index < scan.bytes.length + scan.terminated.toNat := by
  have hmet {allKnown : Bool} {byte : Term}
      (h : scanFrom readByte window fuel (index + 1) allKnown (byte :: found) = .ok scan) :
      index < scan.bytes.length + scan.terminated.toNat := by
    have hle := length_le_of_scanFrom fuel h
    rw [List.length_cons, hindex] at hle
    omega
  rw [scanFrom, if_pos hgoes] at h
  split at h
  · cases h
  · split at h
    · cases h
      rw [List.length_reverse, hindex]
      exact Nat.lt_succ_self index
    · exact hmet h
    · exact hmet h

/-- A search depends on the bytes that it met, and the zero that ended it.  By
induction on the bytes that are left to read. -/
theorem scanFrom_congr (fuel : Nat) (hindex : found.length = index)
    (h : scanFrom readByte window fuel index allKnown found = .ok scan)
    (hreads : ∀ i < scan.bytes.length + scan.terminated.toNat, readByte' i = readByte i) :
    scanFrom readByte' window fuel index allKnown found = .ok scan := by
  induction fuel generalizing index allKnown found with
  | zero => exact h
  | succ fuel ih =>
    have hnext (byte : Term) : (byte :: found).length = index + 1 := by
      rw [List.length_cons, hindex]
    by_cases hgoes : index < window ∨ allKnown = true
    · have hhere := lt_of_scanFrom hgoes hindex h
      rw [scanFrom, if_pos hgoes] at h ⊢
      rw [hreads index hhere]
      split at h
      · cases h
      · split at h
        · exact h
        · exact ih (hnext _) h
        · exact ih (hnext _) h
    · rw [scanFrom, if_neg hgoes] at h ⊢
      exact h

end Search

/-- The failure that a string is too long, at another pointer. -/
def renameString (p : Term) : Except Failure ReturnValue → Except Failure ReturnValue
  | .error (.stringTooLong _ scanned) => .error (.stringTooLong p scanned)
  | result => result

/-- What a search leads to does not depend on the pointer, but for the name of
a string that is too long. -/
theorem runOn_run_congr {q : Term} {found : Scan} (hp : scan config s p = .ok found)
    (hq : scan config s q = .ok found) :
    Execution.runOn (run config p) s =
      Prod.map (renameString p) id (Execution.runOn (run config q) s) := by
  rw [runOn_run hp, runOn_run hq]
  split
  · split <;> rfl
  · rfl

/-- A search behind a pointer finds what a search at an address finds, if the
bytes that this one covers are the same. -/
theorem scan_eq_of_covered (hs : s.WellFormed) (haddr : addr < 2 ^ s.guest.wordBits)
    (hbytes : ∀ i < covered config s addr, byteOf s p i = .ok (stringByte s addr i)) :
    ∃ found, scan config s (.const addr s.guest.wordBits) = .ok found ∧
      scan config s p = .ok found := by
  obtain ⟨n, terminated, hscan, hsearch⟩ := scan_searched (byteOf_eq hs haddr) config
  have hcovered : covered config s addr = n + terminated.toNat := by
    have heq : covered config s addr = if terminated then n + 1 else n :=
      hsearch.coverage_eq (Nat.le_max_left _ _)
    rw [heq]
    cases terminated <;> rfl
  refine ⟨_, hscan, scanFrom_congr _ rfl hscan fun i hi => ?_⟩
  rw [List.length_map, List.length_range, ← hcovered] at hi
  rw [hbytes i hi, byteOf_eq hs haddr]

end Strlen

namespace Summary

open Fold Strlen

variable {s : PathState} {p : Term} {addr : Nat} {m : Model} {config : Config}

/-! ## Writes -/

/-- The state after one record on a descriptor. -/
def recorded (s : PathState) (place : Nat) (data : List Term) (length : Term) : PathState :=
  { s with channels := s.channels.append place { data, length } }

/-- How a write ends, and of how many bytes, does not depend on a buffer whose
bytes can be read. -/
theorem writeBuffer_cases (config : Config) (s : PathState) (fd count : Term) :
    (∃ cause, ∀ (buffer : Term) (byte : Nat → Term),
      (∀ i, byteOf s buffer i = .ok (byte i)) →
        Execution.runOn (writeBuffer config fd buffer count) s = (.error cause, s)) ∨
    ∃ place n, ∀ (buffer : Term) (byte : Nat → Term),
      (∀ i, byteOf s buffer i = .ok (byte i)) →
        Execution.runOn (writeBuffer config fd buffer count) s =
          (.ok none, recorded s place ((List.range n).map byte) count) := by
  cases hn : bytesToRecord config count with
  | error cause =>
    have hcount : Execution.runOn (read fun _ => bytesToRecord config count) s =
        (.error cause, s) := by
      rw [Execution.runOn_read, hn]
    exact .inl ⟨cause, fun _ _ _ => Execution.runOn_bind_of_error hcount⟩
  | ok n =>
    have hcount : Execution.runOn (read fun _ => bytesToRecord config count) s = (.ok n, s) := by
      rw [Execution.runOn_read, hn]
    cases hfd : fd.addressValue? with
    | none =>
      refine .inl ⟨.symbolicDescriptor fd, fun buffer byte hbytes => ?_⟩
      have hdata : Execution.runOn (read (bufferBytes · buffer n)) s =
          (.ok ((List.range n).map byte), s) := by
        rw [Execution.runOn_read, bufferBytes_of_byteOf hbytes]
      rw [writeBuffer, Execution.runOn_bind_of_ok hcount, Execution.runOn_bind_of_ok hdata]
      exact Execution.runOn_bind_of_error (runOn_record_of_unknown hfd s)
    | some place =>
      exact .inr ⟨place, n, fun buffer byte hbytes =>
        runOn_writeBuffer_of_ok hfd hn (bufferBytes_of_byteOf hbytes n)⟩

/-- A pointer that is equated with an address acts as it where its sums are
pinned too.  The byte at an index is that at the address if the sum with the
index is pinned, and the variable of the sum if not.  A search whose sums are
pinned runs as one at the address, with the same length, and a write records as
many bytes. -/
theorem pinned_pointer (config : Config) (hs : s.WellFormed)
    (haddr : addr < 2 ^ s.guest.wordBits) (hp : p.HasSort (.bitVec s.guest.wordBits))
    (hconst : ¬p.isConstant)
    (hpin : .compare .eq p (.const addr s.guest.wordBits) ∈ s.constraints) (hm : m.Total)
    (hold : ∀ c ∈ s.constraints, c.Decides m true) :
    (∀ i, byteOf s p i =
      if pinsSum s p i then byteOf s (.const addr s.guest.wordBits) i
      else .ok (standIn s p i)) ∧
    ((∀ i < covered config s addr, pinsSum s p i) →
      (strlen.inlineCall config [p]).runOn s =
        Prod.map (renameString p) id
          ((strlen.inlineCall config [.const addr s.guest.wordBits]).runOn s)) ∧
    ∀ fd count,
      (∃ cause, (write.inlineCall config [fd, p, count]).runOn s = (.error cause, s) ∧
        (write.inlineCall config [fd, .const addr s.guest.wordBits, count]).runOn s =
          (.error cause, s)) ∨
      ∃ place n,
        (write.inlineCall config [fd, p, count]).runOn s =
          (.ok none, recorded s place ((List.range n).map (byteThrough s p addr)) count) ∧
        (write.inlineCall config [fd, .const addr s.guest.wordBits, count]).runOn s =
          (.ok none, recorded s place ((List.range n).map (stringByte s addr)) count) ∧
        ((∀ i < n, pinsSum s p i) →
          (List.range n).map (byteThrough s p addr) = (List.range n).map (stringByte s addr)) := by
  have hvalue := denotes_of_pinned hp haddr hpin hm hold
  have hbytes := byteOf_pointer hs hp hconst hvalue hold
  have hplain := byteOf_eq hs haddr
  have hthrough {i : Nat} (hpins : pinsSum s p i) : byteThrough s p addr i = stringByte s addr i :=
    if_pos hpins
  refine ⟨fun i => ?_, fun hpins => ?_, fun fd count => ?_⟩
  · rw [hbytes, hplain, byteThrough]
    split <;> rfl
  · have hcovered (i : Nat) (hi : i < covered config s addr) :
        byteOf s p i = .ok (stringByte s addr i) := by
      rw [hbytes, hthrough (hpins i hi)]
    obtain ⟨found, hat, hbehind⟩ := scan_eq_of_covered hs haddr hcovered
    exact runOn_run_congr hbehind hat
  · obtain ⟨cause, hfails⟩ | ⟨place, n, hwrites⟩ := writeBuffer_cases config s fd count
    · exact .inl ⟨cause, hfails p _ hbytes, hfails _ _ hplain⟩
    · refine .inr ⟨place, n, hwrites p _ hbytes, hwrites _ _ hplain, fun hpins => ?_⟩
      exact List.map_congr_left fun i hi => hthrough (hpins i (List.mem_range.1 hi))

/-! ### A pointer to a letter -/

/-- The constraint that a pointer is the address of a letter. -/
def atLetter : Term := .compare .eq (.var "p" 64) (.const 0x1000 64)

/-- The constraints that pin the sums of the pointer with two indices. -/
def sumsAtLetter : List Term :=
  [.compare .eq (.binary .add (.var "p" 64) (.const 0 64)) (.const 0x1000 64),
    .compare .eq (.binary .add (.var "p" 64) (.const 1 64)) (.const 0x1001 64)]

/-- Every variable has the address of the letter, and its low byte is zero. -/
def letterModel : Model := fun _ => some 0x1000

theorem total_letterModel : letterModel.Total := fun _ => ⟨_, rfl⟩

/-- One, if the byte after the letter is the end. -/
def letterLength : Term :=
  .ite (.compare .eq (.var "mem_1001" 8) (.const 0 8)) (.const 1 64) (.const 2 64)

theorem pinned_pointer_letterPath :
    ((strlen.inlineCall shortWindow [.var "p" 64]).runOn
      (letterPath.addConstraints (atLetter :: sumsAtLetter))).1 = .ok (some letterLength) := by
  have hold : ∀ c ∈ atLetter :: sumsAtLetter, c.Decides letterModel true := by
    simp only [sumsAtLetter, List.forall_mem_cons]
    exact ⟨rfl, rfl, rfl, List.forall_mem_nil _⟩
  have haddr : 0x1000 < 2 ^ letterPath.guest.wordBits := by decide
  have hsort : (Term.var "p" 64).HasSort (.bitVec 64) := .var _ (by decide) (by decide)
  obtain ⟨-, hstrlen, -⟩ := pinned_pointer shortWindow
    (wellFormed_letterPath.addConstraints (atLetter :: sumsAtLetter))
    haddr hsort (by decide) (List.mem_append_right _ List.mem_cons_self) total_letterModel hold
  have hcovered : covered shortWindow (letterPath.addConstraints (atLetter :: sumsAtLetter))
      0x1000 = 2 := by
    rfl
  rw [hstrlen fun i hi => ?_]
  · rfl
  · rw [hcovered] at hi
    interval_cases i <;> rfl

/-- Wherever two strings both have a length, the lengths have one value. -/
def SameLength (config : Config) (s : PathState) (m : Model) (p q : Term) : Prop :=
  ∀ length length' s₁ s₂, (strlen.inlineCall config [p]).runOn s = (.ok (some length), s₁) →
    (strlen.inlineCall config [q]).runOn s = (.ok (some length'), s₂) →
      length.eval m = length'.eval m

/-- A constraint on the pointer alone does not place the bytes behind it, not
even the first. -/
theorem pinned_pointer_alone :
    ¬∀ (config : Config) (s : PathState) (p : Term) (addr : Nat) (m : Model), s.WellFormed →
      addr < 2 ^ s.guest.wordBits → p.HasSort (.bitVec s.guest.wordBits) → ¬p.isConstant →
      .compare .eq p (.const addr s.guest.wordBits) ∈ s.constraints → m.Total →
      (∀ c ∈ s.constraints, c.Decides m true) →
      SameLength config s m p (.const addr s.guest.wordBits) := by
  intro hsame
  have hold : ∀ c ∈ [atLetter], c.Decides letterModel true := by
    rw [List.forall_mem_singleton]
    rfl
  have hsort : (Term.var "p" 64).HasSort (.bitVec 64) := .var _ (by decide) (by decide)
  have hlengths := hsame shortWindow (letterPath.addConstraints [atLetter]) (.var "p" 64) 0x1000
    letterModel (wellFormed_letterPath.addConstraints _) (by decide) hsort (by decide)
    (List.mem_append_right _ List.mem_cons_self) total_letterModel hold
  have hbehind : ((strlen.inlineCall shortWindow [.var "p" 64]).runOn
      (letterPath.addConstraints [atLetter])).1 = .ok (some
        (.ite (.compare .eq (standIn letterPath (.var "p" 64) 0) (.const 0 8)) (.const 0 64)
          (.ite (.compare .eq (standIn letterPath (.var "p" 64) 1) (.const 0 8)) (.const 1 64)
            (.const 2 64)))) := by
    rfl
  have hat : ((strlen.inlineCall shortWindow [.const 0x1000 64]).runOn
      (letterPath.addConstraints [atLetter])).1 = .ok (some letterLength) := by
    rfl
  have heval : Except.ok (Value.word 0 64) = .ok (Value.word 1 64) :=
    hlengths _ _ _ _ (Prod.ext hbehind rfl) (Prod.ext hat rfl)
  cases heval

end Summary

end SymLift
