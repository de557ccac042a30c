import SymLift.Proofs.Constants
import SymLift.Proofs.Executions
import SymLift.Proofs.Machine
import SymLift.Summary.Strlen

/-!
# The length of a string

The search for the end of a string has two limits, and a mode that changes
at the first byte that is not known.  `Strlen.coverage` says how many bytes
it covers, without the search.

* `Strlen.stringByte` is the byte at an index of a string.
* `Strlen.Searched` says where a search stops, and `scanFrom_searched` that
  it stops there, by induction on the bytes that are left to read.
* `Searched.coverage_eq`: the search covers as many bytes as it should.
* `exists_denotes_firstEnd`: the length is the index of the first byte that
  is zero.
* `Strlen.Outcome` lists what `strlen` does, and `outcome_inlineCall` says
  that it does one of these.
* `strlen_exact`: what `strlen` fails on, and what its length and its
  constraint mean under every model.
-/

namespace SymLift.Strlen

open Fold

/-! ## The bytes of a string -/

/-- The byte at an index of a string at a known address. -/
def stringByte (s : PathState) (addr index : Nat) : Term :=
  s.memory.byteAt ((addr + index) % 2 ^ s.guest.wordBits)

/-- A known byte that is not zero. -/
def NonzeroConst (t : Term) : Prop := ∃ value, t.constValue? = some value ∧ value ≠ 0

/-- The byte at an index is zero, and no byte before it is. -/
def IsFirstZero (m : Model) (byte : Nat → Term) (j : Nat) : Prop :=
  (byte j).Denotes m 0#8 ∧ ∀ i < j, ¬(byte i).Denotes m 0#8

variable {s : PathState} {addr : Nat} {m : Model}

theorem hasSort_stringByte (hs : s.WellFormed) (addr index : Nat) :
    (stringByte s addr index).HasSort (.bitVec 8) :=
  hs.memory _

/-- The search reads the cells of the string that are bytes. -/
theorem byteOf_eq_of_width (haddr : addr < 2 ^ s.guest.wordBits) {index : Nat}
    (hwidth : (stringByte s addr index).width = 8) :
    byteOf s (.const addr s.guest.wordBits) index = .ok (stringByte s addr index) := by
  have hbase : (Term.const addr s.guest.wordBits).Denotes (fun _ => none)
      (BitVec.ofNat s.guest.wordBits addr) := .const s.guest.wordBits_le haddr
  have hindex : (s.word index).Denotes (fun _ => none) (BitVec.ofNat s.guest.wordBits index) :=
    denotes_lit index s.guest.wordBits_le
  have hsum := denotes_binary .add hbase hindex
  have hconst : (binary .add (.const addr s.guest.wordBits) (s.word index)).constValue?.isSome :=
    isSome_constValue?_binary .add rfl rfl
  have hplace : (binary .add (.const addr s.guest.wordBits) (s.word index)).addressValue? =
      some ((addr + index) % 2 ^ s.guest.wordBits) := by
    rw [hsum.addressValue?_eq (Helper.wordBits_bounds _).2,
      if_pos (Term.isConstant_of_constValue? hconst), BinaryOp.onBits, BitVec.toNat_add,
      BitVec.toNat_ofNat, BitVec.toNat_ofNat, ← Nat.add_mod]
  rw [byteOf, Build.binary_ok (hbase.width_eq.trans hindex.width_eq.symm)]
  exact ByteStore.load_byte hwidth hplace _

theorem byteOf_eq (hs : s.WellFormed) (haddr : addr < 2 ^ s.guest.wordBits) (index : Nat) :
    byteOf s (.const addr s.guest.wordBits) index = .ok (stringByte s addr index) :=
  byteOf_eq_of_width haddr (hasSort_stringByte hs addr index).width_eq

/-! ## Where the search stops -/

section Search

variable {byte : Nat → Term} {window limit n index : Nat} {terminated : Bool}

/-- The search goes on to read the byte at an index: the index is in the
window, or every byte before it is known. -/
def Reads (byte : Nat → Term) (window index : Nat) : Prop :=
  index < window ∨ ∀ i < index, (byte i).constValue?.isSome

theorem Reads.mono {i : Nat} (h : Reads byte window index) (hi : i ≤ index) :
    Reads byte window i :=
  h.imp (Nat.lt_of_le_of_lt hi) fun hknown j hj => hknown j (Nat.lt_of_lt_of_le hj hi)

/-- The search goes on through the window and the first byte that is not
known. -/
theorem reads_iff_of_first {first : Nat} (hfirst : ¬(byte first).constValue?.isSome)
    (hknown : ∀ i < first, (byte i).constValue?.isSome) :
    Reads byte window index ↔ index < window ∨ index ≤ first := by
  refine or_congr_right ⟨fun h => ?_, fun h i hi => hknown i (Nat.lt_of_lt_of_le hi h)⟩
  exact Nat.not_lt.1 fun hlt => hfirst (h first hlt)

/-- A search that read up to `limit` bytes met `n` bytes that are not a known
zero, and then a known zero if it is `terminated`. -/
structure Searched (byte : Nat → Term) (window limit n : Nat) (terminated : Bool) : Prop where
  le : n ≤ limit
  reads : ∀ i < n, Reads byte window i
  nonzero : ∀ i < n, (byte i).constValue? ≠ some 0
  end_of_terminated : terminated = true → n < limit ∧ (byte n).constValue? = some 0
  reads_of_terminated : terminated = true → Reads byte window n
  stops : terminated = false → n = limit ∨ ¬Reads byte window n

/-- By induction on the bytes that are left, for a search that is at `index`
and stopped nowhere before. -/
theorem scanFrom_searched {readByte : Nat → Except Failure Term}
    (hread : ∀ i, readByte i = .ok (byte i)) (fuel : Nat) {allKnown : Bool}
    (hknown : allKnown = true ↔ ∀ i < index, (byte i).constValue?.isSome)
    (hreads : ∀ i < index, Reads byte window i)
    (hnonzero : ∀ i < index, (byte i).constValue? ≠ some 0) :
    ∃ n terminated,
      scanFrom readByte window fuel index allKnown ((List.range index).map byte).reverse =
        .ok { bytes := (List.range n).map byte, terminated } ∧
      Searched byte window (index + fuel) n terminated := by
  induction fuel generalizing index allKnown with
  | zero =>
    refine ⟨index, false, by rw [scanFrom, List.reverse_reverse], ?_⟩
    exact ⟨Nat.le_refl _, hreads, hnonzero, by simp, by simp, fun _ => .inl rfl⟩
  | succ fuel ih =>
    have hhere : (index < window ∨ allKnown = true) ↔ Reads byte window index :=
      or_congr_right hknown
    by_cases hgoes : Reads byte window index
    · rw [scanFrom, if_pos (hhere.2 hgoes), hread]
      dsimp only
      -- The byte here joins those before it.
      have hfound : byte index :: ((List.range index).map byte).reverse =
          ((List.range (index + 1)).map byte).reverse := by
        rw [List.range_succ, List.map_append, List.reverse_append]
        rfl
      have hreads' : ∀ i < index + 1, Reads byte window i :=
        Nat.forall_lt_succ_right.2 ⟨hreads, hgoes⟩
      have hlimit : index + 1 + fuel = index + (fuel + 1) := by omega
      split
      · rename_i hzero
        refine ⟨index, true, by rw [List.reverse_reverse], ?_⟩
        exact ⟨by omega, hreads, hnonzero, fun _ => ⟨by omega, hzero⟩, fun _ => hgoes, by simp⟩
      · rename_i value hne hvalue
        rw [hfound, ← hlimit]
        refine ih ?_ hreads' (Nat.forall_lt_succ_right.2 ⟨hnonzero, ?_⟩)
        · rw [Nat.forall_lt_succ_right, hknown, hvalue]
          simp
        · rw [hvalue]
          exact fun h => hne (Option.some.inj h)
      · rename_i hnone
        rw [hfound, ← hlimit]
        refine ih ?_ hreads' (Nat.forall_lt_succ_right.2 ⟨hnonzero, ?_⟩)
        · rw [Nat.forall_lt_succ_right, hnone]
          simp
        · rw [hnone]
          exact nofun
    · rw [scanFrom, if_neg (mt hhere.1 hgoes), List.reverse_reverse]
      exact ⟨index, false, rfl, by omega, hreads, hnonzero, by simp, by simp, fun _ => .inr hgoes⟩

/-- How many bytes a search covers that meets no known zero in time.  It
covers the window if a byte there is not known, goes through the first byte
that is not known past the window, or covers all bytes up to the limit. -/
def coverageWithoutEnd (byte : Nat → Term) (window limit : Nat) : Nat :=
  match (List.range limit).find? fun i => (byte i).constValue?.isNone with
  | some first => if first < window then window else first + 1
  | none => limit

/-- How many bytes the search covers.  It goes through the first known zero,
if that is in the window or only known bytes come before it. -/
def coverage (byte : Nat → Term) (window limit : Nat) : Nat :=
  match (List.range limit).find? fun i => (byte i).constValue? = some 0 with
  | some last =>
    if last < window ∨ ∀ i < last, (byte i).constValue?.isSome then last + 1
    else coverageWithoutEnd byte window limit
  | none => coverageWithoutEnd byte window limit

theorem Searched.coverageWithoutEnd_eq (h : Searched byte window limit n false)
    (hle : window ≤ limit) : coverageWithoutEnd byte window limit = n := by
  have hstops := h.stops rfl
  unfold coverageWithoutEnd
  split
  · rename_i first hfind
    obtain ⟨hfirst, hmem, hknown⟩ := List.find?_range_eq_some.1 hfind
    have hreads : ∀ index, Reads byte window index ↔ index < window ∨ index ≤ first :=
      fun _ => reads_iff_of_first (by simpa using hfirst) (by simpa using hknown)
    rw [List.mem_range] at hmem
    rw [hreads] at hstops
    have hlast : n ≠ 0 → n - 1 < window ∨ n - 1 ≤ first := by
      intro hn
      exact (hreads _).1 (h.reads (n - 1) (by omega))
    have hn := h.le
    split <;> omega
  · rename_i hfind
    have hknown : ∀ i < limit, (byte i).constValue?.isSome := by
      simpa using List.find?_range_eq_none.1 hfind
    have hreads : Reads byte window n :=
      .inr fun i hi => hknown i (Nat.lt_of_lt_of_le hi h.le)
    exact (hstops.resolve_right (not_not_intro hreads)).symm

/-- The search covers as many bytes as it should. -/
theorem Searched.coverage_eq (h : Searched byte window limit n terminated) (hle : window ≤ limit) :
    coverage byte window limit = if terminated then n + 1 else n := by
  have hnonzero : ∀ i < n, !decide ((byte i).constValue? = some 0) := by
    simpa using h.nonzero
  cases terminated with
  | true =>
    obtain ⟨hlt, hzero⟩ := h.end_of_terminated rfl
    have hfind : (List.range limit).find? (fun i => (byte i).constValue? = some 0) = some n :=
      List.find?_range_eq_some.2 ⟨decide_eq_true hzero, List.mem_range.2 hlt, hnonzero⟩
    have hreads : n < window ∨ ∀ i < n, (byte i).constValue?.isSome := h.reads_of_terminated rfl
    rw [coverage, hfind]
    dsimp only
    rw [if_pos hreads, if_pos rfl]
  | false =>
    have hwithout := h.coverageWithoutEnd_eq hle
    unfold coverage
    split
    · rename_i last hfind
      obtain ⟨hzero, hmem, -⟩ := List.find?_range_eq_some.1 hfind
      have hge : n ≤ last := by
        by_contra hlt
        exact h.nonzero last (Nat.not_le.1 hlt) (of_decide_eq_true hzero)
      -- A zero that lies past the stop is not read.
      have hreads : ¬(last < window ∨ ∀ i < last, (byte i).constValue?.isSome) := by
        intro hreads
        have hlimit := (h.stops rfl).resolve_right (not_not_intro (Reads.mono hreads hge))
        exact Nat.not_lt.2 hge (hlimit ▸ List.mem_range.1 hmem)
      rw [if_neg hreads, hwithout, if_neg Bool.false_ne_true]
    · rw [hwithout, if_neg Bool.false_ne_true]

theorem Searched.coverage_le (h : Searched byte window limit n terminated) (hle : window ≤ limit) :
    coverage byte window limit ≤ limit := by
  rw [h.coverage_eq hle]
  split
  · rename_i hend
    exact (h.end_of_terminated hend).1
  · exact h.le

end Search

/-! ## The length -/

section Length

variable {bytes : List Term} {xs : List (BitVec 8)} {g : Guest} {byte : Nat → Term}
  {x : Nat → BitVec 8} {n j : Nat}

theorem decides_isEnd {t : Term} {y : BitVec 8} (h : t.Denotes m y) :
    (isEnd t).Decides m (y == 0) :=
  decides_compare .eq h (denotes_lit 0 (by decide))

/-- The choice over bytes from `start` up, and `last` if none of them is the
end. -/
def firstEndFrom (word : Nat → Term) (start : Nat) (bytes : List Term) (last : Term) : Term :=
  (bytes.zipIdx start).foldr (fun (byte, index) rest => ite (isEnd byte) (word index) rest) last

theorem firstEnd_eq (word : Nat → Term) (bytes : List Term) :
    firstEnd word bytes = firstEndFrom word 0 bytes (word bytes.length) := rfl

theorem firstEndFrom_cons (word : Nat → Term) (start : Nat) (t : Term) (ts : List Term)
    (last : Term) : firstEndFrom word start (t :: ts) last =
      ite (isEnd t) (word start) (firstEndFrom word (start + 1) ts last) := rfl

/-- The index of the first byte that is zero, from `start` up. -/
theorem denotes_firstEnd_from (h : List.Forall₂ (fun t y => t.Denotes m y) bytes xs) (start : Nat) :
    (firstEndFrom g.word start bytes (g.word (start + bytes.length))).Denotes m
      (BitVec.ofNat g.wordBits (start + xs.findIdx (· == 0))) := by
  induction h generalizing start with
  | nil => exact denotes_lit _ g.wordBits_le
  | @cons t y ts ys ht _ ih =>
    have hrest := ih (start + 1)
    have hlength : start + 1 + ts.length = start + (ts.length + 1) := by omega
    rw [hlength] at hrest
    have hstart : (g.word start).Denotes m (BitVec.ofNat g.wordBits start) :=
      denotes_lit start g.wordBits_le
    rw [firstEndFrom_cons, List.length_cons, List.findIdx_cons]
    refine denotes_ite (decides_isEnd ht) (hstart.sort_eq.trans hrest.sort_eq.symm) ?_
    cases y == 0 with
    | true => exact hstart
    | false =>
      have hindex : start + 1 + ys.findIdx (· == 0) = start + (ys.findIdx (· == 0) + 1) := by omega
      rwa [hindex] at hrest

/-- The length of the bytes before the first one that is zero, and of all of
them if there is none. -/
theorem denotes_firstEnd (hbyte : ∀ i, (byte i).Denotes m (x i)) (hj : j ≤ n)
    (hbefore : ∀ i < j, x i ≠ 0) (hend : j < n → x j = 0) :
    (firstEnd g.word ((List.range n).map byte)).Denotes m (BitVec.ofNat g.wordBits j) := by
  have hvalues : List.Forall₂ (fun t y => t.Denotes m y) ((List.range n).map byte)
      ((List.range n).map x) := by
    rw [List.forall₂_map_left_iff, List.forall₂_map_right_iff, List.forall₂_same]
    exact fun i _ => hbyte i
  have hindex : ((List.range n).map x).findIdx (· == 0) = j := by
    rcases Nat.lt_or_eq_of_le hj with hlt | rfl
    · rw [List.findIdx_eq (by simpa using hlt)]
      simpa using ⟨hend hlt, hbefore⟩
    · refine (List.findIdx_eq_length_of_false ?_).trans (by simp)
      simpa using hbefore
  have hlength := denotes_firstEnd_from (g := g) hvalues 0
  rwa [hindex, Nat.zero_add, Nat.zero_add, ← firstEnd_eq] at hlength

/-- One of the bytes is zero. -/
theorem decides_disj_isEnd_iff (hbyte : ∀ i, ∃ y : BitVec 8, (byte i).Denotes m y) :
    (disj (((List.range n).map byte).map isEnd)).Decides m true ↔
      ∃ i < n, (byte i).Denotes m 0#8 := by
  rw [List.map_map]
  constructor
  · intro h
    obtain ⟨t, ht, htrue⟩ := exists_of_decides_connect Term.connects_disj h
    obtain ⟨i, hi, rfl⟩ := List.mem_map.1 ht
    obtain ⟨y, hy⟩ := hbyte i
    have hzero : y = 0#8 := beq_iff_eq.1 ((decides_isEnd hy).unique htrue)
    exact ⟨i, List.mem_range.1 hi, hzero ▸ hy⟩
  · rintro ⟨i, hi, hzero⟩
    refine decides_connect Term.connects_disj ?_ (iff_of_false Bool.noConfusion fun hall => ?_)
    · intro t ht
      obtain ⟨k, -, rfl⟩ := List.mem_map.1 ht
      obtain ⟨y, hy⟩ := hbyte k
      exact ⟨_, decides_isEnd hy⟩
    · have hfalse := hall _ (List.mem_map.2 ⟨i, List.mem_range.2 hi, rfl⟩)
      exact Bool.noConfusion ((decides_isEnd hzero).unique hfalse)

/-- A test for zero is constantly false only for a known byte. -/
theorem isEnd_eq_false_iff {t : Term} : isEnd t = .bool false ↔ NonzeroConst t := by
  have hzero : (lit 0 8).constValue? = some 0 := rfl
  unfold isEnd Fold.compare NonzeroConst
  rw [hzero]
  cases t.constValue? with
  | none =>
    refine iff_of_false (fun h => ?_) nofun
    dsimp only at h
    split at h <;> cases h
  | some value => simp [CompareOp.holds]

/-- If one of the bytes is zero, the length is the index of the first. -/
theorem exists_denotes_firstEnd (hbyte : ∀ i, ∃ y : BitVec 8, (byte i).Denotes m y) {covered : Nat}
    (hzero : ∃ i < covered, (byte i).Denotes m 0#8) (hn : ∀ i < covered, i ≤ n) :
    ∃ j < covered, IsFirstZero m byte j ∧
      (firstEnd g.word ((List.range n).map byte)).Denotes m (BitVec.ofNat g.wordBits j) := by
  classical
  obtain ⟨x, hx⟩ := Classical.axiomOfChoice hbyte
  obtain ⟨i, hi, hzero⟩ := hzero
  have hex : ∃ i, (byte i).Denotes m 0#8 := ⟨i, hzero⟩
  have hlt : Nat.find hex < covered := Nat.lt_of_le_of_lt (Nat.find_min' hex hzero) hi
  have hbefore : ∀ i < Nat.find hex, ¬(byte i).Denotes m 0#8 := fun i hi => Nat.find_min hex hi
  refine ⟨Nat.find hex, hlt, ⟨Nat.find_spec hex, hbefore⟩, denotes_firstEnd hx (hn _ hlt) ?_ ?_⟩
  · exact fun i hi (hzero : x i = 0#8) => hbefore i hi (hzero ▸ hx i)
  · exact fun _ => (hx _).unique (Nat.find_spec hex)

end Length

/-! ## Running the summary -/

/-- The number of bytes that a search reads at most. -/
def searchLimit (config : Config) : Nat := max config.maxStrLen.toNat config.maxConcreteStrLen.toNat

variable {config : Config}

theorem searchLimit_lt (config : Config) (g : Guest) : searchLimit config < 2 ^ g.wordBits := by
  have hwindow := config.maxStrLen.toNat_lt
  have hconcrete := config.maxConcreteStrLen.toNat_lt
  have hword : 2 ^ 32 ≤ 2 ^ g.wordBits := by cases g <;> decide
  unfold searchLimit
  omega

/-- A search that reads every byte stops somewhere. -/
theorem scan_searched {string : Term} {byte : Nat → Term}
    (hread : ∀ i, byteOf s string i = .ok (byte i)) (config : Config) :
    ∃ n terminated,
      scan config s string = .ok { bytes := (List.range n).map byte, terminated } ∧
      Searched byte config.maxStrLen.toNat (searchLimit config) n terminated := by
  have hsearch : ∃ n terminated,
      scanFrom (byteOf s string) config.maxStrLen.toNat (searchLimit config) 0 true [] =
        .ok { bytes := (List.range n).map byte, terminated } ∧
      Searched byte config.maxStrLen.toNat (0 + searchLimit config) n terminated :=
    scanFrom_searched hread (searchLimit config) (by simp) (by simp) (by simp)
  rw [Nat.zero_add] at hsearch
  rwa [scan, Nat.max_comm]

/-- The length that a search gives that met `n` bytes. -/
def lengthAfter (s : PathState) (addr n : Nat) : Term :=
  firstEnd s.guest.word ((List.range n).map (stringByte s addr))

/-- The constraint that one of the `n` bytes is zero. -/
def someEnd (s : PathState) (addr n : Nat) : Term :=
  disj (((List.range n).map (stringByte s addr)).map isEnd)

theorem someEnd_eq_false_iff {n : Nat} :
    someEnd s addr n = .bool false ↔ ∀ i < n, NonzeroConst (stringByte s addr i) := by
  rw [someEnd, disj, connect_eq_neutral_iff fun _ => Term.noConfusion, List.map_map,
    List.forall_mem_map]
  simp only [List.mem_range]
  exact forall₂_congr fun _ _ => isEnd_eq_false_iff

/-- What `strlen` does at a known address.  It fails, or it gives the length
of the bytes that the search met, and relies on one of them being zero unless
a known zero ended the search. -/
inductive Outcome (config : Config) (s : PathState) (addr : Nat) :
    Except Failure ReturnValue × PathState → Prop where
  | terminated {n : Nat}
      (hsearch : Searched (stringByte s addr) config.maxStrLen.toNat (searchLimit config) n true) :
      Outcome config s addr (.ok (some (lengthAfter s addr n)), s)
  | tooLong (hall : ∀ i < searchLimit config, NonzeroConst (stringByte s addr i)) :
      Outcome config s addr
        (.error (.stringTooLong (.const addr s.guest.wordBits) (searchLimit config)), s)
  | constrained {n : Nat}
      (hsearch : Searched (stringByte s addr) config.maxStrLen.toNat (searchLimit config) n false)
      (hsome : ∃ i < n, ¬NonzeroConst (stringByte s addr i)) :
      Outcome config s addr
        (.ok (some (lengthAfter s addr n)), s.addConstraints [someEnd s addr n])

/-- A byte that cannot be read ends the search. -/
theorem runOn_run_of_error {string : Term} {cause : Failure}
    (hscan : scan config s string = .error cause) :
    Execution.runOn (run config string) s = (.error cause, s) := by
  have hread : Execution.runOn (Summary.read (scan config · string)) s = (.error cause, s) := by
    rw [Execution.runOn_read, hscan]
  rw [run, Execution.runOn_bind_of_error hread]

/-- What a search leads to. -/
theorem runOn_run {string : Term} {found : Scan} (hscan : scan config s string = .ok found) :
    Execution.runOn (run config string) s =
      if !found.terminated && !found.bytes.isEmpty then
        if disj (found.bytes.map isEnd) = .bool false then
          (.error (.stringTooLong string found.bytes.length), s)
        else (.ok (some (firstEnd s.guest.word found.bytes)),
          s.addConstraints [disj (found.bytes.map isEnd)])
      else (.ok (some (firstEnd s.guest.word found.bytes)), s) := by
  have hread : Execution.runOn (Summary.read (scan config · string)) s = (.ok found, s) := by
    rw [Execution.runOn_read, hscan]
  rw [run, Execution.runOn_bind_of_ok hread, Execution.runOn_bind_of_ok (Execution.runOn_get s)]
  dsimp only
  split
  · split
    · exact Execution.runOn_bind_of_error (Execution.runOn_throw _ s)
    · exact Execution.runOn_bind_of_ok (Execution.runOn_modify _ s)
  · exact Execution.runOn_pure _ s

/-- A search for at least one byte meets one, if no known zero ends it. -/
theorem Searched.pos {byte : Nat → Term} {window limit n : Nat}
    (h : Searched byte window limit n false) (hlimit : 0 < limit) : 0 < n := by
  rcases Nat.eq_zero_or_pos n with rfl | hpos
  · rcases h.stops rfl with hzero | hstop
    · omega
    · exact absurd (.inr fun i hi => absurd hi (Nat.not_lt_zero i)) hstop
  · exact hpos

theorem outcome_inlineCall (hs : s.WellFormed) (haddr : addr < 2 ^ s.guest.wordBits)
    (hlimit : 0 < searchLimit config) :
    Outcome config s addr
      ((Summary.strlen.inlineCall config [.const addr s.guest.wordBits]).runOn s) := by
  obtain ⟨n, terminated, hscan, hsearch⟩ := scan_searched (byteOf_eq hs haddr) config
  change Outcome config s addr (Execution.runOn (run config _) s)
  rw [runOn_run hscan]
  cases terminated with
  | true => exact .terminated hsearch
  | false =>
    have hpos := hsearch.pos hlimit
    have hmet : (!((List.range n).map (stringByte s addr)).isEmpty) = true := by
      simpa [List.isEmpty_iff] using hpos.ne'
    dsimp only
    rw [Bool.not_false, Bool.true_and, if_pos hmet]
    split
    · rename_i hnone
      have hall := someEnd_eq_false_iff.1 hnone
      -- All bytes were known, so only the limit can have stopped the search.
      have hn : n = searchLimit config := by
        refine (hsearch.stops rfl).resolve_right (not_not_intro (.inr fun i hi => ?_))
        obtain ⟨value, hvalue, -⟩ := hall i hi
        exact Option.isSome_of_eq_some hvalue
      subst hn
      rw [List.length_map, List.length_range]
      exact .tooLong hall
    · rename_i hsome
      refine .constrained hsearch ?_
      by_contra hall
      push Not at hall
      exact hsome (someEnd_eq_false_iff.2 hall)

section Means

variable (hs : s.WellFormed) (hm : m.Total) {n : Nat}
include hs hm

theorem exists_denotes_stringByte (i : Nat) : ∃ y : BitVec 8, (stringByte s addr i).Denotes m y :=
  (hasSort_stringByte hs addr i).exists_denotes hm

theorem decides_someEnd_iff :
    (someEnd s addr n).Decides m true ↔ ∃ i < n, (stringByte s addr i).Denotes m 0#8 :=
  decides_disj_isEnd_iff (exists_denotes_stringByte hs hm)

/-- If one of the covered bytes is zero, the length is the index of the first
byte that is. -/
theorem exists_denotes_lengthAfter {covered : Nat} (hcovered : covered ≤ n + 1)
    (hzero : ∃ i < covered, (stringByte s addr i).Denotes m 0#8) :
    ∃ j < covered, IsFirstZero m (stringByte s addr) j ∧
      (lengthAfter s addr n).Denotes m (BitVec.ofNat s.guest.wordBits j) :=
  exists_denotes_firstEnd (exists_denotes_stringByte hs hm) hzero fun _ _ => by omega

theorem denotes_zero_of_constValue? {i : Nat} (h : (stringByte s addr i).constValue? = some 0) :
    (stringByte s addr i).Denotes m 0#8 := by
  obtain ⟨y, hy⟩ := exists_denotes_stringByte hs hm i
  have hzero : y = 0#8 := BitVec.eq_of_toNat_eq (hy.constValue?_eq h).symm
  exact hzero ▸ hy

end Means

/-- The number of bytes that the search for the end of a string covers. -/
def covered (config : Config) (s : PathState) (addr : Nat) : Nat :=
  coverage (stringByte s addr) config.maxStrLen.toNat (searchLimit config)

theorem Outcome.of_error {cause : Failure} {s' : PathState}
    (h : Outcome config s addr (.error cause, s')) :
    (∀ i < searchLimit config, NonzeroConst (stringByte s addr i)) ∧
      cause = .stringTooLong (.const addr s.guest.wordBits) (searchLimit config) ∧ s' = s := by
  cases h with
  | tooLong hall => exact ⟨hall, rfl, rfl⟩

/-- Where a length was found, the constraints that were added say that one of
the covered bytes is zero, and the length is the index of the first one. -/
theorem Outcome.of_ok {result : ReturnValue} {s' : PathState} (hs : s.WellFormed)
    (h : Outcome config s addr (.ok result, s')) :
    (¬∀ i < searchLimit config, NonzeroConst (stringByte s addr i)) ∧
    ∃ length more, result = some length ∧ s' = s.addConstraints more ∧
      ((∃ i < covered config s addr, (stringByte s addr i).constValue? = some 0) → more = []) ∧
      ∀ m : Model, m.Total →
        ((∀ c ∈ more, c.Decides m true) ↔
          ∃ j < covered config s addr, (stringByte s addr j).Denotes m 0#8) ∧
        ((∀ c ∈ more, c.Decides m true) →
          ∃ j < covered config s addr, IsFirstZero m (stringByte s addr) j ∧
            length.Denotes m (BitVec.ofNat s.guest.wordBits j)) := by
  cases h with
  | @terminated n hsearch =>
    obtain ⟨hlt, hzero⟩ := hsearch.end_of_terminated rfl
    have hcovered : covered config s addr = n + 1 := hsearch.coverage_eq (Nat.le_max_left _ _)
    rw [hcovered]
    refine ⟨fun hall => ?_, lengthAfter s addr n, [], rfl, (s.addConstraints_nil).symm,
      fun _ => rfl, fun m hm => ?_⟩
    · obtain ⟨value, hvalue, hne⟩ := hall n hlt
      exact hne (Option.some.inj (hvalue.symm.trans hzero))
    · have hend : ∃ i < n + 1, (stringByte s addr i).Denotes m 0#8 :=
        ⟨n, Nat.lt_succ_self n, denotes_zero_of_constValue? hs hm hzero⟩
      exact ⟨iff_of_true (List.forall_mem_nil _) hend,
        fun _ => exists_denotes_lengthAfter hs hm (Nat.le_refl _) hend⟩
  | @constrained n hsearch hsome =>
    have hcovered : covered config s addr = n := hsearch.coverage_eq (Nat.le_max_left _ _)
    obtain ⟨i, hi, hbyte⟩ := hsome
    rw [hcovered]
    refine ⟨fun hall => hbyte (hall i (Nat.lt_of_lt_of_le hi hsearch.le)), lengthAfter s addr n,
      [someEnd s addr n], rfl, rfl, ?_, fun m hm => ?_⟩
    · rintro ⟨k, hk, hzero⟩
      exact absurd hzero (hsearch.nonzero k hk)
    · rw [List.forall_mem_singleton, decides_someEnd_iff hs hm]
      exact ⟨Iff.rfl, exists_denotes_lengthAfter hs hm (Nat.le_succ n)⟩

theorem lt_of_lt_covered (hs : s.WellFormed) (haddr : addr < 2 ^ s.guest.wordBits) {j : Nat}
    (hj : j < covered config s addr) : j < 2 ^ s.guest.wordBits := by
  obtain ⟨n, terminated, -, hsearch⟩ := scan_searched (byteOf_eq hs haddr) config
  have hle := hsearch.coverage_le (Nat.le_max_left _ _)
  exact Nat.lt_trans (Nat.lt_of_lt_of_le hj hle) (searchLimit_lt config s.guest)

theorem eval_of_denotes_ofNat {t : Term} {w j : Nat} (h : t.Denotes m (BitVec.ofNat w j))
    (hj : j < 2 ^ w) : t.eval m = .ok (.word j w) := by
  rw [h.eval_eq, BitVec.toNat_ofNat, Nat.mod_eq_of_lt hj]

/-- `strlen` is exact.  It fails if all bytes up to the limit are known and
not zero, and leaves the state as it was.  Otherwise its constraint says that
one of the covered bytes is zero, and its length is the index of the first
one.  A known zero makes the constraint superfluous. -/
theorem strlen_exact (hs : s.WellFormed) (haddr : addr < 2 ^ s.guest.wordBits)
    (hlimit : 1 ≤ searchLimit config) :
    let byte := stringByte s addr
    let outcome := (Summary.strlen.inlineCall config [.const addr s.guest.wordBits]).runOn s
    ((∀ i < searchLimit config, NonzeroConst (byte i)) →
      outcome = (.error (.stringTooLong (.const addr s.guest.wordBits) (searchLimit config)), s)) ∧
    ((¬∀ i < searchLimit config, NonzeroConst (byte i)) →
      ∃ length more, outcome = (.ok (some length), s.addConstraints more) ∧
        ((∃ i < covered config s addr, (byte i).constValue? = some 0) →
          s.addConstraints more = s) ∧
        ∀ m : Model, m.Total → (∀ c ∈ s.constraints, c.Decides m true) →
          ((∀ c ∈ (s.addConstraints more).constraints, c.Decides m true) ↔
            ∃ j < covered config s addr, (byte j).Denotes m 0#8) ∧
          ((∀ c ∈ (s.addConstraints more).constraints, c.Decides m true) →
            ∃ j < covered config s addr, IsFirstZero m byte j ∧
              length.eval m = .ok (.word j s.guest.wordBits))) := by
  have houtcome : Outcome config s addr _ := outcome_inlineCall hs haddr hlimit
  intro byte outcome
  change Outcome config s addr outcome at houtcome
  clear_value outcome
  rcases outcome with ⟨cause | result, s'⟩
  · obtain ⟨hall, rfl, rfl⟩ := houtcome.of_error
    exact ⟨fun _ => rfl, fun hnot => absurd hall hnot⟩
  · obtain ⟨hnot, length, more, rfl, rfl, hnone, hmeans⟩ := houtcome.of_ok hs
    refine ⟨fun hall => absurd hall hnot, fun _ => ⟨length, more, rfl, fun hzero => ?_,
      fun m hm hold => ?_⟩⟩
    · rw [hnone hzero, PathState.addConstraints_nil]
    · obtain ⟨hiff, hlength⟩ := hmeans m hm
      rw [PathState.forall_addConstraints_iff, and_iff_right hold]
      refine ⟨hiff, fun hmore => ?_⟩
      obtain ⟨j, hj, hfirst, hvalue⟩ := hlength hmore
      exact ⟨j, hj, hfirst, eval_of_denotes_ofNat hvalue (lt_of_lt_covered hs haddr hj)⟩

/-- A letter, before bytes that were never written. -/
def letterPath : PathState :=
  let start := PathState.start .amd64
  { start with memory := start.memory.setByte 0x1000 (.const 0x61 8) }

theorem wellFormed_letterPath : letterPath.WellFormed :=
  have hstart := PathState.wellFormed_start .amd64
  { hstart with
    memory := ByteStore.cellsWellFormed_setByte hstart.memory
      (.const (by decide) (by decide) (by decide)) _ }

/-- A window of two bytes, in a search of at most four. -/
def shortWindow : Config := { maxStrLen := 2, maxConcreteStrLen := 4 }

/-- The byte after the letter may be the end, and is if every variable is
zero. -/
theorem strlen_exact_letterPath :
    ∃ length more,
      (Summary.strlen.inlineCall shortWindow [.const 0x1000 64]).runOn letterPath =
        (.ok (some length), letterPath.addConstraints more) ∧
      ∃ j < 2, length.eval (fun _ => some 0) = .ok (.word j 64) := by
  have haddr : 0x1000 < 2 ^ letterPath.guest.wordBits := by decide
  have hlimit : 1 ≤ searchLimit shortWindow := by decide
  obtain ⟨-, hexact⟩ := strlen_exact wellFormed_letterPath haddr hlimit
  have hnext : stringByte letterPath 0x1000 1 = .var "mem_1001" 8 := by rfl
  have hcovered : covered shortWindow letterPath 0x1000 = 2 := by rfl
  have hsome : ¬∀ i < searchLimit shortWindow, NonzeroConst (stringByte letterPath 0x1000 i) := by
    intro hall
    obtain ⟨value, hvalue, -⟩ := hall 1 (by decide)
    rw [hnext] at hvalue
    cases hvalue
  obtain ⟨length, more, hrun, -, hmeans⟩ := hexact hsome
  obtain ⟨hiff, hlength⟩ := hmeans (fun _ => some 0) (fun _ => ⟨0, rfl⟩) (List.forall_mem_nil _)
  have hend : (stringByte letterPath 0x1000 1).Denotes (fun _ => some 0) 0#8 := by
    rw [hnext]
    exact .var (by decide) rfl
  obtain ⟨j, hj, -, heval⟩ := hlength (hiff.2 ⟨1, by rw [hcovered]; decide, hend⟩)
  exact ⟨length, more, hrun, j, hcovered ▸ hj, heval⟩

end SymLift.Strlen
