import SymLift.Proofs.Arguments
import SymLift.Proofs.StringOutput

/-!
# A summary that fails changes nothing

Most summaries change the state in their last step only.  `puts` does not: it
constrains the path to have an end of the string, writes the string, and
writes a newline.  A write may refuse a known length that is past its limit.

* `isConstant_firstEnd`: a length is known only if every byte before the end
  is.
* `Strlen.of_run`: `strlen` adds a constraint only with a length that is not
  known, so `writeBuffer_succeeds` after it.
* `BuiltIn` lists the summaries of this library.
* `unchanged_of_error` puts them together for all of these.  Reading the
  arguments changes nothing, and a returned value can always be written.
-/

namespace SymLift

open Fold

/-! ## Lengths that are not known -/

namespace Strlen

variable {g : Guest} {bytes : List Term} {s s' : PathState} {string : Term} {config : Config}

theorem word_inj {i j : Nat} (hi : i < 2 ^ g.wordBits) (hj : j < 2 ^ g.wordBits)
    (h : g.word i = g.word j) : i = j := by
  have hvalue : Word.truncate g.wordBits i = Word.truncate g.wordBits j := (Term.const.inj h).1
  rwa [Word.truncate_of_lt (by rwa [Word.size_eq g.wordBits_le]),
    Word.truncate_of_lt (by rwa [Word.size_eq g.wordBits_le])] at hvalue

/-- A choice over bytes none of which is a known zero, from `start` up, is
the number of all of them if they are known, and is no constant otherwise. -/
theorem firstEnd_from_cases (hnonzero : ∀ t ∈ bytes, t.constValue? ≠ some 0) (start : Nat)
    (hfits : start + bytes.length < 2 ^ g.wordBits) {length : Term}
    (hlength : length = firstEndFrom g.word start bytes (g.word (start + bytes.length))) :
    length.isConstant = false ∨
      length = g.word (start + bytes.length) ∧ ∀ t ∈ bytes, NonzeroConst t := by
  induction bytes generalizing start length with
  | nil => exact .inr ⟨hlength, List.forall_mem_nil _⟩
  | cons t ts ih =>
    obtain ⟨ht, hts⟩ := List.forall_mem_cons.1 hnonzero
    have hcount : start + 1 + ts.length = start + (t :: ts).length := by
      rw [List.length_cons]
      omega
    rw [firstEndFrom_cons, ← hcount] at hlength
    rw [← hcount] at hfits ⊢
    have hrest := ih hts (start + 1) hfits rfl
    generalize firstEndFrom g.word (start + 1) ts (g.word (start + 1 + ts.length)) = rest
      at hlength hrest
    cases hconst : t.constValue? with
    | some value =>
      -- A known byte is not the end, and is skipped.
      have hbyte : NonzeroConst t := ⟨value, hconst, fun hzero => ht (hzero ▸ hconst)⟩
      have hskip : length = rest := by
        rw [hlength, isEnd_eq_false_iff.2 hbyte]
        rfl
      rw [hskip]
      exact hrest.imp_right fun ⟨heq, hall⟩ => ⟨heq, List.forall_mem_cons.2 ⟨hbyte, hall⟩⟩
    | none =>
      -- The two arms differ, so the choice stays.
      have hdiffer : g.word start ≠ rest := by
        rcases hrest with hopen | ⟨rfl, -⟩
        · rintro rfl
          cases hopen
        · intro hsame
          have heq := word_inj (by omega) hfits hsame
          omega
      have htest : isEnd t = .compare .eq t (lit 0 8) := compare_of_constValue? .eq hconst rfl
      have hchoice : length = .ite (isEnd t) (g.word start) rest := by
        rw [hlength, htest]
        exact if_neg hdiffer
      rw [hchoice]
      exact .inl rfl

/-- A length is known only if every byte before the end is. -/
theorem isConstant_firstEnd (hnonzero : ∀ t ∈ bytes, t.constValue? ≠ some 0)
    (hfits : bytes.length < 2 ^ g.wordBits) (hsome : ¬∀ t ∈ bytes, NonzeroConst t) :
    (firstEnd g.word bytes).isConstant = false := by
  have hcases := firstEnd_from_cases (g := g) hnonzero 0 (by rwa [Nat.zero_add]) rfl
  rw [Nat.zero_add] at hcases
  exact hcases.resolve_right fun h => hsome h.2

/-! ## Runs of `strlen` -/

/-- Every byte of a string at an address of one word can be read. -/
theorem hasSort_byteOf (hs : s.HoldsBitVectors)
    (hstring : string.HasSort (.bitVec s.guest.wordBits)) (index : Nat) :
    ∃ t, byteOf s string index = .ok t ∧ t.HasSort (.bitVec 8) := by
  have hindex : (s.word index).width = s.guest.wordBits := rfl
  rw [byteOf, Build.binary_ok (hstring.width_eq.trans hindex.symm), fault_ok_bind]
  exact ByteStore.hasSort_load hs.memory _ _ (by decide) (by decide)

theorem atomic_run : (run config string).Atomic s := by
  intro cause s' h
  cases hscan : scan config s string with
  | error failure =>
    rw [runOn_run_of_error hscan] at h
    exact (Prod.ext_iff.1 h).2.symm
  | ok found =>
    rw [runOn_run hscan] at h
    split at h
    · split at h
      · exact (Prod.ext_iff.1 h).2.symm
      · cases h
    · cases h

/-- A length comes with a new constraint only if it is not known. -/
theorem of_run (hs : s.HoldsBitVectors) (hstring : string.HasSort (.bitVec s.guest.wordBits))
    {result : ReturnValue} (h : Execution.runOn (run config string) s = (.ok result, s')) :
    ∃ length, result = some length ∧
      (s' = s ∨ length.isConstant = false ∧ ∃ more, s' = s.addConstraints more) := by
  have hbytes (i : Nat) := hasSort_byteOf hs hstring i
  choose byte hread hsort using hbytes
  obtain ⟨n, terminated, hscan, hsearch⟩ := scan_searched hread config
  rw [runOn_run hscan] at h
  dsimp only at h
  split at h
  · split at h
    · cases h
    · rename_i hsome
      cases h
      refine ⟨_, rfl, .inr ⟨isConstant_firstEnd ?_ ?_ fun hall => hsome ?_, _, rfl⟩⟩
      · intro t ht
        obtain ⟨i, hi, rfl⟩ := List.mem_map.1 ht
        exact hsearch.nonzero i (List.mem_range.1 hi)
      · rw [List.length_map, List.length_range]
        exact hsearch.le.trans_lt (searchLimit_lt config s.guest)
      · rw [disj, connect_eq_neutral_iff fun _ => Term.noConfusion, List.forall_mem_map]
        exact fun t ht => isEnd_eq_false_iff.2 (hall t ht)
  · cases h
    exact ⟨_, rfl, .inl rfl⟩

end Strlen

/-! ## Summaries on arguments -/

namespace Summary

open Execution Strlen

variable {config : Config} {s : PathState} {fd buffer count string char : Term} {args : List Term}

theorem atomic_writeBuffer : (writeBuffer config fd buffer count).Atomic s := by
  refine atomic_read_bind fun available _ => atomic_read_bind fun data _ => ?_
  exact (atomic_update _ s).bind fun _ => .inl ⟨none, _, runOn_pure none _⟩

/-- A write of a length that is not known does not fail. -/
theorem writeBuffer_succeeds (hs : s.HoldsBitVectors)
    (hbuffer : buffer.HasSort (.bitVec s.guest.wordBits)) (hcount : count.isConstant = false)
    {place : Nat} (hfd : fd.addressValue? = some place) :
    (writeBuffer config fd buffer count).Succeeds s := by
  have hopen : count.addressValue? = none := by
    cases count with
    | const => cases hcount
    | _ => rfl
  have hbytes (i : Nat) := hasSort_byteOf hs hbuffer i
  choose byte hread hsort using hbytes
  have hn : bytesToRecord config count = .ok config.maxBufferBytes.toNat := by
    rw [bytesToRecord, hopen]
  exact ⟨none, _, runOn_writeBuffer_of_ok hfd hn (bufferBytes_of_byteOf hread _)⟩

theorem record_newline_succeeds (g : Guest) (s : PathState) :
    (record (g.word standardOutput) [lit 0x0a 8] (g.word 1) >>= fun _ =>
      (pure none : Execution ReturnValue)).Succeeds s :=
  Succeeds.bind (runOn_record (addressValue?_standardOutput g) s) ⟨none, _, runOn_pure none _⟩

theorem atomic_writeChar : (writeChar char).Atomic s := by
  refine atomic_read_bind fun byte _ => atomic_get_bind ?_
  exact (atomic_update _ s).bind fun _ => .inl ⟨some char, _, runOn_pure _ _⟩

theorem atomic_writeLine (hs : s.HoldsBitVectors)
    (hstring : string.HasSort (.bitVec s.guest.wordBits)) : (writeLine config string).Atomic s := by
  refine atomic_get_bind (Atomic.bind atomic_run fun {result s'} hrun => ?_)
  obtain ⟨length, rfl, rfl | ⟨hopen, more, rfl⟩⟩ := of_run hs hstring hrun
  · -- No constraint was added, and only the write may still fail.
    refine .inr ⟨rfl, atomic_read_bind fun count _ => ?_⟩
    exact Atomic.bind atomic_writeBuffer fun _ => .inl (record_newline_succeeds _ _)
  · have hs' : (s.addConstraints more).HoldsBitVectors := ⟨hs.registers, hs.memory, hs.temps⟩
    have hsucceeds : (writeBuffer config (s.guest.word standardOutput) string length).Succeeds
        (s.addConstraints more) :=
      writeBuffer_succeeds hs' hstring hopen (addressValue?_standardOutput s.guest)
    obtain ⟨result, s', hwrite⟩ := hsucceeds
    refine .inl (Succeeds.bind (runOn_read _ _) (Succeeds.bind hwrite ?_))
    exact record_newline_succeeds _ _

end Summary

/-! ## Summaries as a whole -/

/-- A summary that comes with this library. -/
inductive BuiltIn where
  | strlen
  | puts
  | putchar
  | write
  deriving DecidableEq

/-- The summary. -/
def BuiltIn.summary : BuiltIn → Summary
  | strlen => Summary.strlen
  | puts => Summary.puts
  | putchar => Summary.putchar
  | write => Summary.write

namespace Summary

open Execution Strlen

variable {config : Config} {s : PathState} {summary : Summary} {args : List Term}

/-- An argument is a word, or has the width of its type. -/
def Fits (word : Nat) (ty : CType) (t : Term) : Prop :=
  t.HasSort (.bitVec word) ∨ ∃ w, ty.width? word = some w ∧ t.HasSort (.bitVec w)

theorem atomic_body (hs : s.HoldsBitVectors) (b : BuiltIn)
    (hargs : ∀ {ty t}, (ty, t) ∈ b.summary.signature.args.zip args → Fits s.guest.wordBits ty t) :
    (b.summary.body config args).Atomic s := by
  cases b with
  | strlen =>
    simp only [BuiltIn.summary, strlen]
    split
    · exact atomic_run
    · exact atomic_throw _ s
  | puts =>
    simp only [BuiltIn.summary, puts]
    split
    · rename_i string
      have hfits : Fits s.guest.wordBits .string string := hargs List.mem_cons_self
      have hstring : string.HasSort (.bitVec s.guest.wordBits) := by
        rcases hfits with hword | ⟨w, hw, hsort⟩
        · exact hword
        · cases hw
          exact hsort
      exact atomic_writeLine hs hstring
    · exact atomic_throw _ s
  | putchar =>
    simp only [BuiltIn.summary, putchar]
    split
    · exact atomic_writeChar
    · exact atomic_throw _ s
  | write =>
    simp only [BuiltIn.summary, write]
    split
    · exact atomic_writeBuffer
    · exact atomic_throw _ s

theorem atomic_inlineCall (h : (summary.body config args).Atomic s) :
    (summary.inlineCall config args).Atomic s := by
  unfold inlineCall
  split
  · exact h
  · exact atomic_throw _ s

/-- What follows the body of a summary does not fail. -/
theorem atomic_invoke {cc : Convention}
    (h : ∀ args, cc.arguments summary.name summary.signature s = .ok args →
      (summary.body config args).Atomic s) : (summary.invoke config cc).Atomic s := by
  refine atomic_read_bind fun args hread => (h args hread).bind fun {result s'} _ => .inl ?_
  cases result with
  | none => exact ⟨none, s', rfl⟩
  | some value =>
    obtain ⟨s'', hreturn⟩ : ∃ s'', cc.setReturn s' value = .ok s'' := ⟨_, cc.setReturn_eq s' value⟩
    have hupdate : runOn (update (cc.setReturn · value)) s' = (.ok (), s'') := by
      rw [runOn_update, hreturn]
    dsimp only
    split
    · exact Succeeds.bind hupdate ⟨some value, s'', rfl⟩
    · exact ⟨some value, s', rfl⟩

/-- A summary that fails leaves the state of the path as it was, both on given
arguments and as the guest calls it. -/
theorem unchanged_of_error (hs : s.HoldsBitVectors) (config : Config) (b : BuiltIn) :
    (∀ args, (∀ {ty t}, (ty, t) ∈ b.summary.signature.args.zip args →
        Fits s.guest.wordBits ty t) →
      ∀ cause s', (b.summary.inlineCall config args).runOn s = (.error cause, s') → s' = s) ∧
    ∀ cc : Convention, cc.wordBits = s.guest.wordBits →
      ∀ cause s', (b.summary.invoke config cc).runOn s = (.error cause, s') → s' = s := by
  constructor
  · intro args hargs
    exact atomic_inlineCall (atomic_body hs b hargs)
  · intro cc hword
    refine atomic_invoke fun args hread => atomic_body hs b fun hmem => .inr ?_
    rw [← hword]
    exact (List.forall₂_iff_zip.1 (Convention.hasSort_arguments hs hread)).2 hmem

/-! ### A write that is refused -/

/-- A string of two letters, and a pointer to it in the register of the first
argument. -/
def stringPath : PathState :=
  { lettersPath with
    memory := lettersPath.memory.setByte 0x1002 (.const 0 8)
    registers := lettersPath.registers.setBytes 72 (Fold.toBytes .little (.const 0x1000 64)) }

/-- Writes of at most one byte. -/
def shortWrites : Config := { maxWriteBytes := 1 }

theorem hasSort_pointer : (Term.const 0x1000 64).HasSort (.bitVec 64) :=
  .const (by decide) (by decide) (by decide)

theorem holdsBitVectors_stringPath : stringPath.HoldsBitVectors where
  registers := ByteStore.cellsWellFormed_setBytes wellFormed_lettersPath.registers
    (Fold.hasSort_toBytes _ hasSort_pointer) _
  memory := ByteStore.cellsWellFormed_setByte wellFormed_lettersPath.memory
    (.const (by decide) (by decide) (by decide)) _
  temps := wellFormed_lettersPath.temps

theorem unchanged_of_error_stringPath :
    (puts.inlineCall shortWrites [.const 0x1000 64]).runOn stringPath =
        (.error (.writeTooLong 2 1), stringPath) ∧
      (puts.invoke shortWrites .amd64SysV).runOn stringPath =
        (.error (.writeTooLong 2 1), stringPath) := by
  obtain ⟨hinline, hinvoke⟩ := unchanged_of_error holdsBitVectors_stringPath shortWrites .puts
  have hfits : ∀ {ty t}, (ty, t) ∈ puts.signature.args.zip [Term.const 0x1000 64] →
      Fits stringPath.guest.wordBits ty t := by
    intro ty t hmem
    obtain ⟨-, rfl⟩ := Prod.ext_iff.1 (List.mem_singleton.1 hmem)
    exact .inl hasSort_pointer
  have hrefused : ((puts.inlineCall shortWrites [.const 0x1000 64]).runOn stringPath).1 =
      .error (.writeTooLong 2 1) := by
    rfl
  have hrefused' : ((puts.invoke shortWrites .amd64SysV).runOn stringPath).1 =
      .error (.writeTooLong 2 1) := by
    rfl
  exact ⟨Prod.ext hrefused (hinline _ hfits _ _ (Prod.ext hrefused rfl)),
    Prod.ext hrefused' (hinvoke .amd64SysV rfl _ _ (Prod.ext hrefused' rfl))⟩

end Summary

end SymLift
