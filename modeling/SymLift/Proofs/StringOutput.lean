import SymLift.Proofs.StringLength
import SymLift.Summary.Output

/-!
# The output of a string

`puts` is made of a search for the end of the string, a write of that many
bytes, and a newline.  The search and the write have limits of their own, so
the bytes that are recorded may be fewer than the length says.

* `of_writeBuffer` and `of_writeLine` take a run that succeeded apart.
* `bufferBytes_eq`: the bytes of a buffer are those of the string.
* `PrintsLine` is what two records say of a string under a model.
* `puts_prints_line`: the records of `puts` print the string.  Their data are
  all of it where the length is known, and as many bytes as the limit of a
  buffer where it is not.
* `puts_truncates`: the data need not be all of the string.
-/

namespace SymLift.Summary

open Fold Strlen

variable {config : Config} {s s' : PathState} {addr : Nat} {m : Model}
  {fd buffer count length : Term} {data : List Term} {r : ReturnValue}

/-! ## Records -/

theorem addressValue?_standardOutput (g : Guest) :
    (g.word standardOutput).addressValue? = some standardOutput := by
  cases g <;> decide

/-- A record is added to a known descriptor, and nothing else changes. -/
theorem runOn_record {place : Nat} (hfd : fd.addressValue? = some place) (s : PathState) :
    Execution.runOn (record fd data length) s =
      (.ok (), { s with channels := s.channels.append place { data, length } }) := by
  rw [record, Execution.runOn_update, Channels.write, hfd]
  rfl

theorem runOn_record_of_unknown (hfd : fd.addressValue? = none) (s : PathState) :
    Execution.runOn (record fd data length) s = (.error (.symbolicDescriptor fd), s) := by
  rw [record, Execution.runOn_update, Channels.write, hfd]
  rfl

/-- A record that was added is on a known descriptor. -/
theorem of_record {u : Unit} (h : Execution.runOn (record fd data length) s = (.ok u, s')) :
    ∃ place, fd.addressValue? = some place ∧
      s' = { s with channels := s.channels.append place { data, length } } := by
  cases hfd : fd.addressValue? with
  | some place =>
    rw [runOn_record hfd] at h
    exact ⟨place, rfl, (Prod.ext_iff.1 h).2.symm⟩
  | none =>
    rw [runOn_record_of_unknown hfd] at h
    cases h

/-- A write that succeeds adds one record, of the bytes that were there. -/
theorem of_writeBuffer (h : Execution.runOn (writeBuffer config fd buffer count) s = (.ok r, s')) :
    ∃ place n data, fd.addressValue? = some place ∧ bytesToRecord config count = .ok n ∧
      bufferBytes s buffer n = .ok data ∧ r = none ∧
      s' = { s with channels := s.channels.append place { data, length := count } } := by
  obtain ⟨n, hn, h⟩ := Execution.exists_of_runOn_read_bind_ok h
  obtain ⟨data, hbytes, h⟩ := Execution.exists_of_runOn_read_bind_ok h
  obtain ⟨_, s₃, hrecord, h⟩ := Execution.exists_of_runOn_bind_ok h
  obtain ⟨place, hfd, rfl⟩ := of_record hrecord
  cases h
  exact ⟨place, n, data, hfd, hn, hbytes, rfl, rfl⟩

/-- A write of bytes that can be read, to a known descriptor, adds one
record. -/
theorem runOn_writeBuffer_of_ok {place n : Nat} (hfd : fd.addressValue? = some place)
    (hn : bytesToRecord config count = .ok n) (hdata : bufferBytes s buffer n = .ok data) :
    Execution.runOn (writeBuffer config fd buffer count) s =
      (.ok none, { s with channels := s.channels.append place { data, length := count } }) := by
  have hfirst : Execution.runOn (read fun _ => bytesToRecord config count) s = (.ok n, s) := by
    rw [Execution.runOn_read, hn]
  have hsecond : Execution.runOn (read (bufferBytes · buffer n)) s = (.ok data, s) := by
    rw [Execution.runOn_read, hdata]
  rw [writeBuffer, Execution.runOn_bind_of_ok hfirst, Execution.runOn_bind_of_ok hsecond,
    Execution.runOn_bind_of_ok (runOn_record hfd s), Execution.runOn_pure]

/-- Bytes that can all be read are the bytes of the buffer. -/
theorem bufferBytes_of_byteOf {byte : Nat → Term} (h : ∀ i, byteOf s buffer i = .ok (byte i))
    (n : Nat) : bufferBytes s buffer n = .ok ((List.range n).map byte) :=
  mapM_eq_ok fun i _ => h i

/-- The bytes of a buffer are those of the string there. -/
theorem bufferBytes_eq (hs : s.WellFormed) (haddr : addr < 2 ^ s.guest.wordBits) (n : Nat) :
    bufferBytes s (.const addr s.guest.wordBits) n =
      .ok ((List.range n).map (stringByte s addr)) :=
  bufferBytes_of_byteOf (byteOf_eq hs haddr) n

/-- The record of a newline. -/
def newline (g : Guest) : WriteRecord := { data := [lit 0x0a 8], length := g.word 1 }

/-- The state after two records on the standard output. -/
def afterRecords (s : PathState) (first second : WriteRecord) : PathState :=
  { s with channels := (s.channels.append standardOutput first).append standardOutput second }

/-- A line that was written is a length that was found, a record of the
string, and a record of a newline. -/
theorem of_writeLine {string : Term}
    (h : Execution.runOn (writeLine config string) s = (.ok r, s')) :
    ∃ result s₁ length n data, (strlen.inlineCall config [string]).runOn s = (.ok result, s₁) ∧
      result.materialize "strlen_ret" s.guest.wordBits = .ok length ∧
      bytesToRecord config length = .ok n ∧ bufferBytes s₁ string n = .ok data ∧ r = none ∧
      s' = afterRecords s₁ { data, length } (newline s.guest) := by
  obtain ⟨here, s₀, hget, h⟩ := Execution.exists_of_runOn_bind_ok h
  cases hget
  obtain ⟨result, s₁, hstrlen, h⟩ := Execution.exists_of_runOn_bind_ok h
  obtain ⟨length, hlength, h⟩ := Execution.exists_of_runOn_read_bind_ok h
  obtain ⟨_, s₃, hwrite, h⟩ := Execution.exists_of_runOn_bind_ok h
  obtain ⟨place, n, data, hfd, hn, hdata, -, rfl⟩ := of_writeBuffer hwrite
  obtain rfl : standardOutput = place :=
    Option.some.inj ((addressValue?_standardOutput _).symm.trans hfd)
  obtain ⟨_, s₄, hnewline, h⟩ := Execution.exists_of_runOn_bind_ok h
  rw [runOn_record (addressValue?_standardOutput _)] at hnewline
  cases hnewline
  cases h
  exact ⟨result, s₁, length, n, data, hstrlen, Failure.ofFault_eq_ok_iff.1 hlength, hn, hdata,
    rfl, rfl⟩

/-! ## Lines -/

/-- What two records say of a string under a model: as many bytes as come
before the first zero, of which those that are recorded are the bytes of the
string, and then a newline. -/
structure PrintsLine (s : PathState) (addr : Nat) (m : Model) (first second : WriteRecord)
    (length : Nat) : Prop where
  isFirstZero : IsFirstZero m (stringByte s addr) length
  length_eq : first.length.eval m = .ok (.word length s.guest.wordBits)
  data_eq : ∀ i < length, ∀ t, first.data[i]? = some t →
    ∃ y : BitVec 8, t.Denotes m y ∧ (stringByte s addr i).Denotes m y
  second_eq : second = newline s.guest

/-- A write records as many bytes as a known count says, and a fixed number
for a count that is not known. -/
theorem bytesToRecord_eq {w n : Nat} {x : BitVec w} (hcount : count.Denotes m x) (hw : w ≤ 64)
    (h : bytesToRecord config count = .ok n) :
    n = if count.isConstant then x.toNat else config.maxBufferBytes.toNat := by
  rw [bytesToRecord, hcount.addressValue?_eq hw] at h
  by_cases hconst : count.isConstant = true
  · rw [if_pos hconst] at h ⊢
    dsimp only at h
    split at h
    · cases h
    · cases h
      rfl
  · rw [if_neg hconst] at h ⊢
    cases h
    rfl

/-- `puts` prints the string and a newline.  The record of the string has all
of its bytes if its length is known, and as many as the limit of a buffer if
it is not. -/
theorem puts_prints_line (hs : s.WellFormed) (haddr : addr < 2 ^ s.guest.wordBits)
    (hlimit : 1 ≤ searchLimit config)
    (h : (puts.inlineCall config [.const addr s.guest.wordBits]).runOn s = (.ok r, s')) :
    ∃ first second, s'.channels.writes standardOutput =
        s.channels.writes standardOutput ++ [first, second] ∧
      ∀ m : Model, m.Total → (∀ c ∈ s'.constraints, c.Decides m true) →
        ∃ length, PrintsLine s addr m first second length ∧
          first.data.length =
            if first.length.isConstant then length else config.maxBufferBytes.toNat := by
  obtain ⟨result, s₁, length, n, data, hstrlen, hlength, hn, hdata, -, rfl⟩ := of_writeLine h
  have houtcome := outcome_inlineCall hs haddr hlimit
  rw [hstrlen] at houtcome
  obtain ⟨-, found, more, rfl, rfl, -, hmeans⟩ := houtcome.of_ok hs
  obtain rfl : found = length := Except.ok.inj hlength
  -- New constraints leave the bytes of the string as they were.
  have hbytes : data = (List.range n).map (stringByte s addr) :=
    Except.ok.inj (hdata.symm.trans (bufferBytes_eq (hs.addConstraints more) haddr n))
  refine ⟨{ data, length := found }, newline s.guest, ?_, fun m hm hold => ?_⟩
  · rw [afterRecords, Channels.writes_append, if_pos rfl, Channels.writes_append, if_pos rfl,
      List.append_assoc]
    rfl
  · obtain ⟨j, hj, hfirst, hfound⟩ := (hmeans m hm).2 (PathState.forall_addConstraints_iff.1 hold).2
    have hfits := lt_of_lt_covered hs haddr hj
    refine ⟨j, ⟨hfirst, eval_of_denotes_ofNat hfound hfits, fun i _ t ht => ?_, rfl⟩, ?_⟩
    · obtain ⟨hi, rfl⟩ := List.getElem?_eq_some_iff.1 ht
      obtain ⟨y, hy⟩ := exists_denotes_stringByte hs hm i
      refine ⟨y, ?_, hy⟩
      simpa [hbytes] using hy
    · have hcount := bytesToRecord_eq hfound (Helper.wordBits_bounds _).2 hn
      rw [BitVec.toNat_ofNat, Nat.mod_eq_of_lt hfits] at hcount
      rw [hbytes, List.length_map, List.length_range, hcount]

/-! ### A buffer that is too small -/

/-- Two letters, before bytes that were never written. -/
def lettersPath : PathState :=
  { letterPath with memory := letterPath.memory.setByte 0x1001 (.const 0x62 8) }

theorem wellFormed_lettersPath : lettersPath.WellFormed :=
  { wellFormed_letterPath with
    memory := ByteStore.cellsWellFormed_setByte wellFormed_letterPath.memory
      (.const (by decide) (by decide) (by decide)) _ }

/-- A window of two bytes, and a buffer of one. -/
def narrowBuffer : Config := { shortWindow with maxBufferBytes := 1 }

/-- The byte past the window may be the end.  One byte of the string is
recorded. -/
theorem runOn_lettersPath :
    ∃ s', (puts.inlineCall narrowBuffer [.const 0x1000 64]).runOn lettersPath = (.ok none, s') ∧
      s'.constraints = [.compare .eq (.var "mem_1002" 8) (.const 0 8)] ∧
      s'.channels.writes standardOutput =
        [{ data := [.const 0x61 8]
           length := .ite (.compare .eq (.var "mem_1002" 8) (.const 0 8)) (.const 2 64)
            (.const 3 64) },
          newline .amd64] := by
  have hok : ((puts.inlineCall narrowBuffer [.const 0x1000 64]).runOn lettersPath).1 =
      .ok none := by
    rfl
  exact ⟨_, Prod.ext hok rfl, rfl, rfl⟩

/-- Every variable is zero, so the byte past the letters is the end. -/
def allZero : Model := fun _ => some 0

theorem total_allZero : allZero.Total := fun _ => ⟨0, rfl⟩

theorem decides_lettersPath :
    ∀ c ∈ [Term.compare .eq (.var "mem_1002" 8) (.const 0 8)], c.Decides allZero true := by
  rw [List.forall_mem_singleton]
  rfl

theorem puts_prints_line_lettersPath :
    ∃ s' first second,
      (puts.inlineCall narrowBuffer [.const 0x1000 64]).runOn lettersPath = (.ok none, s') ∧
      s'.channels.writes standardOutput =
        lettersPath.channels.writes standardOutput ++ [first, second] ∧
      ∃ length, PrintsLine lettersPath 0x1000 allZero first second length ∧
        first.data.length =
          if first.length.isConstant then length else narrowBuffer.maxBufferBytes.toNat := by
  obtain ⟨s', hrun, hconstraints, -⟩ := runOn_lettersPath
  have haddr : 0x1000 < 2 ^ lettersPath.guest.wordBits := by decide
  have hlimit : 1 ≤ searchLimit narrowBuffer := by decide
  obtain ⟨first, second, hwrites, hmeans⟩ :=
    puts_prints_line wellFormed_lettersPath haddr hlimit hrun
  have hline := hmeans allZero total_allZero (hconstraints ▸ decides_lettersPath)
  exact ⟨s', first, second, hrun, hwrites, hline⟩

/-- Whenever `puts` succeeds, the record of the string has all of its bytes. -/
def PrintsWholeString (config : Config) (s : PathState) (addr : Nat) : Prop :=
  ∀ r s', (puts.inlineCall config [.const addr s.guest.wordBits]).runOn s = (.ok r, s') →
    ∀ m : Model, m.Total → (∀ c ∈ s'.constraints, c.Decides m true) →
      ∃ first second length,
        s'.channels.writes standardOutput =
          s.channels.writes standardOutput ++ [first, second] ∧
        PrintsLine s addr m first second length ∧ length ≤ first.data.length

/-- A length that is not known may be past the limit of a buffer. -/
theorem puts_truncates :
    lettersPath.WellFormed ∧ 0x1000 < 2 ^ lettersPath.guest.wordBits ∧
      1 ≤ searchLimit narrowBuffer ∧ ¬PrintsWholeString narrowBuffer lettersPath 0x1000 := by
  refine ⟨wellFormed_lettersPath, by decide, by decide, fun hwhole => ?_⟩
  obtain ⟨s', hrun, hconstraints, hrecords⟩ := runOn_lettersPath
  obtain ⟨first, second, length, hwrites, hline, hle⟩ :=
    hwhole none s' hrun allZero total_allZero (hconstraints ▸ decides_lettersPath)
  have hnone : lettersPath.channels.writes standardOutput = [] := by rfl
  rw [hrecords, hnone, List.nil_append] at hwrites
  obtain ⟨rfl, -⟩ := List.cons.inj hwrites
  have hlength : Except.ok (Value.word 2 64) = .ok (Value.word length 64) := hline.length_eq
  obtain ⟨rfl, -⟩ := Value.word.inj (Except.ok.inj hlength)
  exact absurd hle (by decide)

end SymLift.Summary
