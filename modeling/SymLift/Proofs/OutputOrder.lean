import SymLift.Proofs.StringOutput

/-!
# Output in the order of the calls

Summaries that write known bytes to known descriptors have no choice: they
succeed, add no constraint, and what they write is appended.

* `OutputCall` is a call of `puts`, `putchar` or `write` with the bytes that
  it is to write, and `OutputCall.Valid` says that they are there.
* `scanFrom_string`: the search for the end of a known string finds it.
* `OutputCall.runOn_execution`: what one call does.  It appends its records
  to its descriptor, and nothing else changes.
* `runOn_calls`: what any sequence of calls does, by induction on the calls.
* `output_in_order`: each descriptor holds what it held before, and then the
  bytes of the calls on it, in the order of the calls.
-/

namespace SymLift

/-! ## Channels -/

/-- What records say was written, if all of it is known. -/
def WriteRecord.output? (records : List WriteRecord) : Option (List UInt8) :=
  (records.mapM bytes?).map List.flatten

theorem WriteRecord.output?_singleton {record : WriteRecord} {bytes : List UInt8}
    (h : record.bytes? = some bytes) : output? [record] = some bytes := by
  rw [output?, List.mapM_cons, h]
  exact congrArg some (List.append_nil bytes)

theorem WriteRecord.output?_append {before after : List WriteRecord} {first second : List UInt8}
    (hbefore : output? before = some first) (hafter : output? after = some second) :
    output? (before ++ after) = some (first ++ second) := by
  obtain ⟨firsts, hfirsts, rfl⟩ := Option.map_eq_some_iff.1 hbefore
  obtain ⟨seconds, hseconds, rfl⟩ := Option.map_eq_some_iff.1 hafter
  rw [output?, List.mapM_append, hfirsts, hseconds, ← List.flatten_append]
  rfl

namespace Channels

/-- Adds records to a descriptor. -/
def appendAll (c : Channels) (fd : Nat) (records : List WriteRecord) : Channels :=
  records.foldl (·.append fd ·) c

theorem writes_appendAll (c : Channels) (fd other : Nat) (records : List WriteRecord) :
    (c.appendAll fd records).writes other =
      c.writes other ++ if fd = other then records else [] := by
  induction records generalizing c with
  | nil => rw [ite_self, List.append_nil]; rfl
  | cons record records ih =>
    rw [appendAll, List.foldl_cons, ← appendAll, ih, writes_append]
    split
    · rename_i heq
      rw [heq, List.append_assoc, List.singleton_append]
    · rfl

theorem output?_eq (c : Channels) (fd : Nat) :
    c.output? fd = WriteRecord.output? (c.writes fd) := by
  rw [output?, WriteRecord.output?]
  cases (c.writes fd).mapM WriteRecord.bytes? <;> rfl

end Channels

/-! ## Known bytes -/

/-- Known bytes as terms. -/
def knownBytes (bytes : List UInt8) : List Term := bytes.map fun b => .const b.toNat 8

theorem bytes?_knownBytes {length : Term} {bytes : List UInt8}
    (hlength : length.addressValue? = some bytes.length) :
    WriteRecord.bytes? { data := knownBytes bytes, length } = some bytes := by
  have hall : (knownBytes bytes).take bytes.length = knownBytes bytes := by
    rw [knownBytes, ← List.map_take, List.take_length]
  have hknown : WriteRecord.knownByte? ∘ (fun b : UInt8 => Term.const b.toNat 8) = some := by
    funext b
    exact congrArg some (UInt8.ofNat_toNat)
  rw [WriteRecord.bytes?, hlength]
  change ((knownBytes bytes).take bytes.length).mapM WriteRecord.knownByte? = _
  rw [hall, knownBytes, List.mapM_map, hknown]
  exact List.mapM_pure.trans (congrArg some (List.map_id' bytes))

namespace Strlen

open Fold

variable {config : Config} {s : PathState} {addr index fuel window : Nat} {text bytes : List UInt8}

/-- The bytes of a string or a buffer begin with known ones. -/
def HoldsBytes (byte : Nat → Term) (bytes : List UInt8) : Prop :=
  ∀ i (h : i < bytes.length), byte i = .const bytes[i].toNat 8

/-- The bytes begin with a known string and a zero. -/
structure HoldsString (byte : Nat → Term) (text : List UInt8) : Prop where
  bytes : HoldsBytes byte text
  nonzero : ∀ b ∈ text, b ≠ 0
  terminator : byte text.length = .const 0 8

theorem HoldsBytes.byteOf_eq (h : HoldsBytes (stringByte s addr) bytes)
    (haddr : addr < 2 ^ s.guest.wordBits) {i : Nat} (hi : i < bytes.length) :
    byteOf s (.const addr s.guest.wordBits) i = .ok (.const bytes[i].toNat 8) := by
  rw [← h i hi]
  exact byteOf_eq_of_width haddr (by rw [h i hi]; rfl)

theorem HoldsString.byteOf_eq_end (h : HoldsString (stringByte s addr) text)
    (haddr : addr < 2 ^ s.guest.wordBits) :
    byteOf s (.const addr s.guest.wordBits) text.length = .ok (.const 0 8) := by
  rw [← h.terminator]
  exact byteOf_eq_of_width haddr (by rw [h.terminator]; rfl)

section Search

variable {readByte : Nat → Except Failure Term} {t : Term} {found : List Term}

/-- While every byte was known, the search goes on past one that is known and
not zero. -/
theorem scanFrom_nonzero (hread : readByte index = .ok t) (ht : NonzeroConst t) :
    scanFrom readByte window (fuel + 1) index true found =
      scanFrom readByte window fuel (index + 1) true (t :: found) := by
  obtain ⟨value, hvalue, hne⟩ := ht
  rw [scanFrom, if_pos (.inr rfl), hread]
  dsimp only
  split
  · rename_i hzero
    exact absurd (Option.some.inj (hvalue.symm.trans hzero)) hne
  · rfl
  · rename_i hnone
    cases hvalue.symm.trans hnone

theorem scanFrom_zero (hread : readByte index = .ok t) (ht : t.constValue? = some 0) :
    scanFrom readByte window (fuel + 1) index true found =
      .ok { bytes := found.reverse, terminated := true } := by
  rw [scanFrom, if_pos (.inr rfl), hread]
  dsimp only
  rw [ht]
  rfl

/-- The search goes through known bytes and ends at the zero after them, by
induction on the bytes. -/
theorem scanFrom_string {bytes : List Term}
    (hread : ∀ i (h : i < bytes.length), readByte (index + i) = .ok bytes[i])
    (hnonzero : ∀ t ∈ bytes, NonzeroConst t)
    (hend : readByte (index + bytes.length) = .ok t) (ht : t.constValue? = some 0)
    (hfuel : bytes.length < fuel) :
    scanFrom readByte window fuel index true found =
      .ok { bytes := found.reverse ++ bytes, terminated := true } := by
  obtain ⟨fuel, rfl⟩ : ∃ fuel', fuel = fuel' + 1 := ⟨fuel - 1, by omega⟩
  induction bytes generalizing index fuel found with
  | nil =>
    rw [List.append_nil]
    exact scanFrom_zero hend ht
  | cons byte bytes ih =>
    obtain ⟨hbyte, hbytes⟩ := List.forall_mem_cons.1 hnonzero
    have hhere : readByte index = .ok byte := hread 0 (Nat.succ_pos _)
    have hnext (i : Nat) : readByte (index + 1 + i) = readByte (index + (i + 1)) := by
      rw [Nat.add_assoc, Nat.add_comm 1]
    have hothers : ∀ i (h : i < bytes.length), readByte (index + 1 + i) = .ok bytes[i] :=
      fun i hi => (hnext i).trans (hread (i + 1) (Nat.succ_lt_succ hi))
    rw [List.length_cons] at hend hfuel
    obtain ⟨fuel, rfl⟩ : ∃ fuel', fuel = fuel' + 1 := ⟨fuel - 1, by omega⟩
    rw [scanFrom_nonzero hhere hbyte, ih hothers hbytes ((hnext _).trans hend) fuel (by omega),
      List.reverse_cons, List.append_assoc, List.singleton_append]

end Search

/-- The length of bytes that are known not to be the end. -/
theorem firstEnd_eq_length (word : Nat → Term) {bytes : List Term}
    (h : ∀ t ∈ bytes, NonzeroConst t) : firstEnd word bytes = word bytes.length := by
  have hskip (start : Nat) (rest : Term) : firstEndFrom word start bytes rest = rest := by
    induction bytes generalizing start with
    | nil => rfl
    | cons t ts ih =>
      obtain ⟨ht, hts⟩ := List.forall_mem_cons.1 h
      rw [firstEndFrom_cons, ih hts, isEnd_eq_false_iff.2 ht]
      rfl
  rw [firstEnd_eq, hskip]

theorem HoldsString.nonzeroConst {byte : Nat → Term} (h : HoldsString byte text) :
    ∀ t ∈ knownBytes text, NonzeroConst t := by
  rw [knownBytes, List.forall_mem_map]
  exact fun b hb => ⟨b.toNat, rfl, fun hzero => h.nonzero b hb (UInt8.toNat_inj.1 hzero)⟩

/-- The length of a known string is known, and nothing is assumed. -/
theorem runOn_strlen (h : HoldsString (stringByte s addr) text)
    (haddr : addr < 2 ^ s.guest.wordBits) (hlimit : text.length < searchLimit config) :
    (Summary.strlen.inlineCall config [.const addr s.guest.wordBits]).runOn s =
      (.ok (some (s.guest.word text.length)), s) := by
  have hlength : (knownBytes text).length = text.length := List.length_map ..
  have hscan : scan config s (.const addr s.guest.wordBits) =
      .ok { bytes := knownBytes text, terminated := true } := by
    have hread : ∀ i (hi : i < (knownBytes text).length),
        byteOf s (.const addr s.guest.wordBits) (0 + i) = .ok (knownBytes text)[i] := by
      intro i hi
      rw [Nat.zero_add, h.bytes.byteOf_eq haddr (hlength ▸ hi)]
      simp [knownBytes]
    have hend : byteOf s (.const addr s.guest.wordBits) (0 + (knownBytes text).length) =
        .ok (.const 0 8) := by
      rw [Nat.zero_add, hlength]
      exact h.byteOf_eq_end haddr
    have hfuel : (knownBytes text).length <
        max config.maxConcreteStrLen.toNat config.maxStrLen.toNat := by
      rwa [hlength, Nat.max_comm]
    exact scanFrom_string hread h.nonzeroConst hend rfl hfuel
  change Execution.runOn (run config _) s = _
  rw [runOn_run hscan, firstEnd_eq_length _ h.nonzeroConst, hlength]
  rfl

end Strlen

namespace Summary

open Fold Strlen

variable {config : Config} {s : PathState} {addr place : Nat} {text bytes : List UInt8}
  {fd count : Term}

/-! ## Writing known bytes -/

theorem bufferBytes_knownBytes (h : HoldsBytes (stringByte s addr) bytes)
    (haddr : addr < 2 ^ s.guest.wordBits) :
    bufferBytes s (.const addr s.guest.wordBits) bytes.length = .ok (knownBytes bytes) := by
  have hcells : (List.range bytes.length).map (stringByte s addr) = knownBytes bytes := by
    refine List.ext_getElem (by simp [knownBytes]) fun i hi _ => ?_
    have hi' : i < bytes.length := by simpa using hi
    simpa [knownBytes] using h i hi'
  have hread : ∀ i ∈ List.range bytes.length, byteOf s (.const addr s.guest.wordBits) i =
      .ok (stringByte s addr i) := by
    intro i hi
    rw [List.mem_range] at hi
    rw [h.byteOf_eq haddr hi, h i hi]
  rw [← hcells]
  exact mapM_eq_ok hread

/-- A write of known bytes appends one record. -/
theorem runOn_writeBuffer (hfd : fd.addressValue? = some place)
    (h : HoldsBytes (stringByte s addr) bytes) (haddr : addr < 2 ^ s.guest.wordBits)
    (hcount : count.addressValue? = some bytes.length)
    (hlimit : bytes.length ≤ config.maxWriteBytes.toNat) :
    (writeBuffer config fd (.const addr s.guest.wordBits) count).runOn s =
      (.ok none, { s with
        channels := s.channels.append place { data := knownBytes bytes, length := count } }) := by
  have hrecord : bytesToRecord config count = .ok bytes.length := by
    rw [bytesToRecord, hcount]
    exact if_neg (Nat.not_lt.2 hlimit)
  exact runOn_writeBuffer_of_ok hfd hrecord (bufferBytes_knownBytes h haddr)

/-- A number that fits a word is its own address. -/
theorem addressValue?_word {g : Guest} {n : Nat} (h : n < 2 ^ g.wordBits) :
    (g.word n).addressValue? = some n := by
  have hword : 2 ^ g.wordBits ≤ UInt64.size := by cases g <;> decide
  rw [Guest.word, lit, Word.truncate_of_lt (by rwa [Word.size_eq g.wordBits_le])]
  exact if_pos (Nat.lt_of_lt_of_le h hword)

theorem fits_of_le {limit : UInt32} {n : Nat} (h : n ≤ limit.toNat) (g : Guest) :
    n < 2 ^ g.wordBits := by
  have hlimit := limit.toNat_lt
  have hword : 2 ^ 32 ≤ 2 ^ g.wordBits := by cases g <;> decide
  omega

end Summary

/-! ## Calls -/

/-- A call of a summary that writes, and the bytes that it is to write. -/
inductive OutputCall where
  /-- `puts` of the string at an address. -/
  | puts (addr : Nat) (text : List UInt8)
  /-- `putchar` of a C `int`. -/
  | putchar (char : BitVec 32)
  /-- `write` from a buffer.  The descriptor and the count are constants of
  any widths. -/
  | write (fd fdWidth buffer countWidth : Nat) (data : List UInt8)

namespace OutputCall

open Execution Strlen Summary

variable {config : Config} {s : PathState} {call : OutputCall} {calls : List OutputCall}

/-- The call, on a machine. -/
def execution (config : Config) (g : Guest) : OutputCall → Execution ReturnValue
  | puts addr _ => Summary.puts.inlineCall config [.const addr g.wordBits]
  | putchar char => Summary.putchar.inlineCall config [.const char.toNat 32]
  | write fd fdWidth buffer countWidth data =>
    Summary.write.inlineCall config
      [.const fd fdWidth, .const buffer g.wordBits, .const data.length countWidth]

/-- The bytes are there, and the limits allow for them. -/
def Valid (config : Config) (s : PathState) : OutputCall → Prop
  | puts addr text =>
    addr < 2 ^ s.guest.wordBits ∧ HoldsString (stringByte s addr) text ∧
      text.length < searchLimit config ∧ text.length ≤ config.maxWriteBytes.toNat
  | putchar _ => True
  | write fd fdWidth buffer _ data =>
    fd < 2 ^ fdWidth ∧ fdWidth ≤ 64 ∧ buffer < 2 ^ s.guest.wordBits ∧
      HoldsBytes (stringByte s buffer) data ∧ data.length ≤ config.maxWriteBytes.toNat

/-- The descriptor that is written to. -/
def descriptor : OutputCall → Nat
  | puts .. | putchar _ => standardOutput
  | write fd .. => fd

/-- The bytes that are written. -/
def output : OutputCall → List UInt8
  | puts _ text => text ++ [0x0a]
  | putchar char => [UInt8.ofNat char.toNat]
  | write _ _ _ _ data => data

/-- The number of records that are added. -/
def recordCount : OutputCall → Nat
  | puts .. => 2
  | putchar _ | write .. => 1

/-- The records that are added. -/
def records (g : Guest) : OutputCall → List WriteRecord
  | puts _ text => [{ data := knownBytes text, length := g.word text.length }, newline g]
  | putchar char => [{ data := knownBytes [UInt8.ofNat char.toNat], length := g.word 1 }]
  | write _ _ _ countWidth data =>
    [{ data := knownBytes data, length := .const data.length countWidth }]

theorem length_records (g : Guest) (call : OutputCall) :
    (call.records g).length = call.recordCount := by
  cases call <;> rfl

/-- The records say what was written. -/
theorem output?_records (h : call.Valid config s) :
    WriteRecord.output? (call.records s.guest) = some call.output := by
  have hone : (s.guest.word 1).addressValue? = some 1 :=
    addressValue?_word (by cases s.guest <;> decide)
  cases call with
  | puts addr text =>
    obtain ⟨-, -, -, hlimit⟩ := h
    have htext := addressValue?_word (fits_of_le hlimit s.guest)
    have hnewline : WriteRecord.bytes? { data := knownBytes [0x0a], length := s.guest.word 1 } =
        some [0x0a] := bytes?_knownBytes hone
    exact WriteRecord.output?_append (WriteRecord.output?_singleton (bytes?_knownBytes htext))
      (WriteRecord.output?_singleton hnewline)
  | putchar char => exact WriteRecord.output?_singleton (bytes?_knownBytes hone)
  | write fd fdWidth buffer countWidth data =>
    obtain ⟨-, -, -, -, hlimit⟩ := h
    have hcount : (Term.const data.length countWidth).addressValue? = some data.length :=
      if_pos (fits_of_le hlimit .amd64)
    exact WriteRecord.output?_singleton (bytes?_knownBytes hcount)

/-- The state after a call. -/
def after (s : PathState) (call : OutputCall) : PathState :=
  { s with channels := s.channels.appendAll call.descriptor (call.records s.guest) }

/-- The length is known, so the string is written whole. -/
theorem runOn_puts {addr : Nat} {text : List UInt8} (h : (puts addr text).Valid config s) :
    ((puts addr text).execution config s.guest).runOn s = (.ok none, after s (puts addr text)) := by
  obtain ⟨haddr, htext, hlimit, hwrite⟩ := h
  have hlength : runOn (Summary.read fun _ => Failure.ofFault (ReturnValue.materialize
      (some (s.guest.word text.length)) "strlen_ret" s.guest.wordBits)) s =
        (.ok (s.guest.word text.length), s) := runOn_read _ s
  have hbuffer := runOn_writeBuffer (s := s) (addressValue?_standardOutput s.guest) htext.bytes
    haddr (addressValue?_word (fits_of_le hwrite s.guest)) hwrite
  change runOn (writeLine config _) s = _
  rw [writeLine, runOn_bind_of_ok (runOn_get s), runOn_bind_of_ok (runOn_strlen htext haddr hlimit),
    runOn_bind_of_ok hlength]
  dsimp only
  rw [runOn_bind_of_ok (by exact hbuffer),
    runOn_bind_of_ok (runOn_record (addressValue?_standardOutput s.guest) _)]
  rfl

theorem runOn_putchar (config : Config) (s : PathState) (char : BitVec 32) :
    ((putchar char).execution config s.guest).runOn s =
      (.ok (some (.const char.toNat 32)), after s (putchar char)) := by
  have hbyte : Build.extract 7 0 (.const char.toNat 32) =
      .ok (.const (UInt8.ofNat char.toNat).toNat 8) := by
    have hwidth : (Term.const char.toNat 32).width = 32 := rfl
    exact Build.extract_ok (by decide) (by rw [hwidth]; decide)
  have hread : runOn (Summary.read fun _ => Failure.ofFault
      (Build.extract 7 0 (.const char.toNat 32))) s =
        (.ok (.const (UInt8.ofNat char.toNat).toNat 8), s) := by
    rw [runOn_read, hbyte]
    rfl
  change runOn (writeChar _) s = _
  rw [writeChar, runOn_bind_of_ok hread, runOn_bind_of_ok (runOn_get s)]
  exact runOn_bind_of_ok (runOn_record (addressValue?_standardOutput s.guest) s)

/-- A call succeeds and adds its records to its descriptor. -/
theorem runOn_execution (h : call.Valid config s) :
    ∃ r, (call.execution config s.guest).runOn s = (.ok r, after s call) := by
  cases call with
  | puts addr text => exact ⟨_, runOn_puts h⟩
  | putchar char => exact ⟨_, runOn_putchar config s char⟩
  | write fd fdWidth buffer countWidth data =>
    obtain ⟨hfd, hwidth, hbuffer, hdata, hlimit⟩ := h
    have hplace : (Term.const fd fdWidth).addressValue? = some fd :=
      if_pos (Nat.lt_of_lt_of_le hfd (Nat.pow_le_pow_right (by decide) hwidth))
    have hcount : (Term.const data.length countWidth).addressValue? = some data.length :=
      if_pos (fits_of_le hlimit .amd64)
    exact ⟨none, runOn_writeBuffer hplace hdata hbuffer hcount hlimit⟩

/-- A call changes nothing that another call relies on. -/
theorem valid_after_iff {other : OutputCall} :
    other.Valid config (after s call) ↔ other.Valid config s := by
  cases other <;> exact Iff.rfl

/-- The calls on a descriptor, in order. -/
def on (fd : Nat) (calls : List OutputCall) : List OutputCall :=
  calls.filter (·.descriptor = fd)

theorem on_cons (fd : Nat) (call : OutputCall) (calls : List OutputCall) :
    on fd (call :: calls) = (if call.descriptor = fd then [call] else []) ++ on fd calls := by
  rw [on, List.filter_cons]
  split <;> simp_all [on]

/-- Calls succeed and add their records in order, by induction on the calls. -/
theorem runOn_calls (h : ∀ call ∈ calls, call.Valid config s) :
    ∃ results channels,
      (calls.mapM (execution config s.guest)).runOn s = (.ok results, { s with channels }) ∧
        ∀ fd, channels.writes fd =
          s.channels.writes fd ++ (on fd calls).flatMap (records s.guest) := by
  induction calls generalizing s with
  | nil => exact ⟨[], s.channels, rfl, fun fd => (List.append_nil _).symm⟩
  | cons call calls ih =>
    obtain ⟨hcall, hcalls⟩ := List.forall_mem_cons.1 h
    obtain ⟨r, hrun⟩ := runOn_execution hcall
    obtain ⟨results, channels, hrest, hwrites⟩ :=
      ih (s := after s call) fun other hother => valid_after_iff.2 (hcalls other hother)
    refine ⟨r :: results, channels, ?_, fun fd => ?_⟩
    · rw [List.mapM_cons, runOn_bind_of_ok hrun, runOn_bind_of_ok (by exact hrest)]
      rfl
    · rw [hwrites fd, on_cons, List.flatMap_append, ← List.append_assoc]
      congr 1
      rw [after, Channels.writes_appendAll]
      split
      · rw [List.flatMap_singleton]
      · rfl

/-- What a sequence of calls says was written to a descriptor. -/
theorem output?_flatMap (h : ∀ call ∈ calls, call.Valid config s) :
    WriteRecord.output? (calls.flatMap (records s.guest)) = some (calls.flatMap output) := by
  induction calls with
  | nil => rfl
  | cons call calls ih =>
    obtain ⟨hcall, hcalls⟩ := List.forall_mem_cons.1 h
    exact WriteRecord.output?_append (output?_records hcall) (ih hcalls)

/-- Channels record the order of the calls.  Calls of `puts`, `putchar` and
`write` on known bytes all succeed, in whatever order they come, and change
nothing but the channels.  If all output was known before, every descriptor
then holds its earlier output and the bytes of the calls on it, in the order
of the calls. -/
theorem output_in_order (hknown : ∀ fd, (s.channels.output? fd).isSome) (config : Config)
    (calls : List OutputCall) (hcalls : ∀ call ∈ calls, call.Valid config s) :
    ∃ results channels,
      (calls.mapM (execution config s.guest)).runOn s = (.ok results, { s with channels }) ∧
        ∀ fd, ∃ earlier more,
          s.channels.output? fd = some earlier ∧
          channels.output? fd = some (earlier ++ (on fd calls).flatMap output) ∧
          channels.writes fd = s.channels.writes fd ++ more ∧
          more.length = ((on fd calls).map recordCount).sum := by
  obtain ⟨results, channels, hrun, hwrites⟩ := runOn_calls hcalls
  refine ⟨results, channels, hrun, fun fd => ?_⟩
  obtain ⟨earlier, hearlier⟩ := Option.isSome_iff_exists.1 (hknown fd)
  have hon : ∀ call ∈ on fd calls, call.Valid config s := fun call hcall =>
    hcalls call (List.mem_of_mem_filter hcall)
  refine ⟨earlier, _, hearlier, ?_, hwrites fd, ?_⟩
  · rw [Channels.output?_eq] at hearlier ⊢
    rw [hwrites fd]
    exact WriteRecord.output?_append hearlier (output?_flatMap hon)
  · simp only [List.length_flatMap, length_records]

/-- A string that wraps around the end of the addresses of 32 bits. -/
def wrappedPath : PathState :=
  let start := PathState.start .x86
  let memory := start.memory.setByte 0xffffffff (.const 0x61 8)
  { start with memory := (memory.setByte 0 (.const 0x62 8)).setByte 1 (.const 0 8) }

/-- Calls on two descriptors, one of them named by constants of two widths. -/
def wrappedCalls : List OutputCall :=
  [write 1 8 0xffffffff 16 [0x61], puts 0xffffffff [0x61, 0x62], write 2 32 0 32 [0x62, 0],
    putchar 0x163]

theorem valid_wrappedCalls : ∀ call ∈ wrappedCalls, call.Valid {} wrappedPath := by
  have hletter : HoldsBytes (stringByte wrappedPath 0xffffffff) [0x61] := by
    intro i hi
    rw [List.length_singleton, Nat.lt_one_iff] at hi
    subst hi
    rfl
  have hpair {addr : Nat} {a b : UInt8} (h0 : stringByte wrappedPath addr 0 = .const a.toNat 8)
      (h1 : stringByte wrappedPath addr 1 = .const b.toNat 8) :
      HoldsBytes (stringByte wrappedPath addr) [a, b] := by
    intro i hi
    match i, hi with
    | 0, _ => exact h0
    | 1, _ => exact h1
  simp only [wrappedCalls, List.forall_mem_cons]
  refine ⟨⟨by decide, by decide, by decide, hletter, by decide⟩,
    ⟨by decide, ⟨hpair rfl rfl, by simp, rfl⟩, by decide, by decide⟩,
    ⟨by decide, by decide, by decide, hpair rfl rfl, by decide⟩, trivial, List.forall_mem_nil _⟩

theorem output_in_order_wrapped :
    ∃ results channels,
      (wrappedCalls.mapM (execution {} .x86)).runOn wrappedPath =
        (.ok results, { wrappedPath with channels }) ∧
      channels.output? 1 = some [0x61, 0x61, 0x62, 0x0a, 0x63] ∧
      channels.output? 2 = some [0x62, 0] ∧ (channels.writes 1).length = 4 := by
  have hnothing (fd : Nat) : wrappedPath.channels.output? fd = some [] := by
    have hempty : wrappedPath.channels.writes fd = [] := by
      simp [Channels.writes, wrappedPath, PathState.start]
    rw [Channels.output?, hempty]
    rfl
  obtain ⟨results, channels, hrun, hfds⟩ := output_in_order (s := wrappedPath)
    (fun fd => Option.isSome_of_eq_some (hnothing fd)) {} wrappedCalls valid_wrappedCalls
  obtain ⟨earlier, more, hearlier, houtput, hwrites, hcount⟩ := hfds 1
  obtain rfl : [] = earlier := Option.some.inj ((hnothing 1).symm.trans hearlier)
  obtain ⟨earlier', more', hearlier', houtput', -⟩ := hfds 2
  obtain rfl : [] = earlier' := Option.some.inj ((hnothing 2).symm.trans hearlier')
  refine ⟨results, channels, hrun, houtput, houtput', ?_⟩
  rw [hwrites, List.length_append, hcount]
  rfl

end OutputCall

end SymLift
