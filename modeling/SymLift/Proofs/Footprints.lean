import SymLift.Proofs.Atomicity

/-!
# What a summary may change

A summary that succeeds leaves the memory and the temporaries as they were.
How many constraints it may add, and where it writes how many records,
depends on the summary only.

* `Footprint` says what may differ between the state before and after, the
  registers apart.  Footprints of steps add up.
* `BuiltIn.records`, `BuiltIn.limit` and `BuiltIn.WritesTo` say how much each
  summary of this library writes and assumes.
* `BuiltIn.footprint_body`: the body of a summary stays within its footprint,
  and changes no register.
* `Convention.returned_setReturn`: a returned value changes one word of the
  register file, which holds the value from then on.
* `BuiltIn.footprint` puts them together for given arguments and for the
  arguments of a guest.
-/

namespace SymLift

/-! ## Footprints -/

/-- Between two states, `records` records of bytes were added to one
descriptor and at most `limit` constraints to the path.  Nothing else
changed, the registers apart. -/
structure Footprint (fd records limit : Nat) (s s' : PathState) : Prop where
  guest : s'.guest = s.guest
  memory : s'.memory = s.memory
  temps : s'.temps = s.temps
  constraints : ∃ more, s'.constraints = s.constraints ++ more ∧ more.length ≤ limit
  writes : ∃ more, s'.channels.writes fd = s.channels.writes fd ++ more ∧
    more.length = records ∧ ∀ r ∈ more, ∀ t ∈ r.data, t.HasSort (.bitVec 8)
  others : ∀ other ≠ fd, s'.channels.writes other = s.channels.writes other

namespace Footprint

variable {fd records records' limit limit' : Nat} {s s' s'' : PathState}

theorem refl (fd : Nat) (s : PathState) : Footprint fd 0 0 s s where
  guest := rfl
  memory := rfl
  temps := rfl
  constraints := ⟨[], (List.append_nil _).symm, Nat.le_refl 0⟩
  writes := ⟨[], (List.append_nil _).symm, rfl, List.forall_mem_nil _⟩
  others := fun _ _ => rfl

/-- Footprints of steps add up. -/
theorem trans (h : Footprint fd records limit s s') (h' : Footprint fd records' limit' s' s'') :
    Footprint fd (records + records') (limit + limit') s s'' where
  guest := h'.guest.trans h.guest
  memory := h'.memory.trans h.memory
  temps := h'.temps.trans h.temps
  constraints := by
    obtain ⟨first, hfirst, hle⟩ := h.constraints
    obtain ⟨second, hsecond, hle'⟩ := h'.constraints
    refine ⟨first ++ second, by rw [hsecond, hfirst, List.append_assoc], ?_⟩
    rw [List.length_append]
    exact Nat.add_le_add hle hle'
  writes := by
    obtain ⟨first, hfirst, hlength, hbytes⟩ := h.writes
    obtain ⟨second, hsecond, hlength', hbytes'⟩ := h'.writes
    refine ⟨first ++ second, by rw [hsecond, hfirst, List.append_assoc], ?_,
      List.forall_mem_append.2 ⟨hbytes, hbytes'⟩⟩
    rw [List.length_append, hlength, hlength']
  others := fun other hne => (h'.others other hne).trans (h.others other hne)

theorem weaken (h : Footprint fd records limit s s') (hle : limit ≤ limit') :
    Footprint fd records limit' s s' :=
  { h with constraints := h.constraints.imp fun _ ⟨hmore, hlength⟩ => ⟨hmore, hlength.trans hle⟩ }

theorem holdsBitVectors (h : Footprint fd records limit s s') (hs : s.HoldsBitVectors)
    (hregisters : s'.registers = s.registers) : s'.HoldsBitVectors where
  registers := hregisters ▸ hs.registers
  memory := h.memory ▸ hs.memory
  temps := by
    unfold PathState.temp?
    rw [h.temps]
    exact hs.temps

/-- One constraint. -/
theorem addConstraint (fd : Nat) (s : PathState) (t : Term) :
    Footprint fd 0 1 s (s.addConstraints [t]) :=
  { refl fd s with constraints := ⟨_, rfl, List.length_filter_le _ [t]⟩ }

theorem setRegisters (fd : Nat) (s : PathState) (registers : ByteStore) :
    Footprint fd 0 0 s { s with registers } :=
  { refl fd s with }

/-- One record. -/
theorem append (s : PathState) {r : WriteRecord} (hr : ∀ t ∈ r.data, t.HasSort (.bitVec 8)) :
    Footprint fd 1 0 s { s with channels := s.channels.append fd r } :=
  { refl fd s with
    writes := by
      refine ⟨[r], ?_, rfl, List.forall_mem_singleton.2 hr⟩
      rw [Channels.writes_append, if_pos rfl]
    others := fun other hne => by rw [Channels.writes_append, if_neg hne.symm] }

end Footprint

/-! ## The returned value -/

namespace Convention

variable {cc : Convention} {s s' : PathState} {value : Term} {v : Nat}

/-- Between two register files, a value of at most one word went to the
return register.  The word there reads as the value, zero-extended, and no
other byte changed. -/
structure Returned (cc : Convention) (before after : ByteStore) (value : Term) : Prop where
  others : ∀ addr < 2 ^ 64,
    ¬(cc.returnRegister ≤ addr ∧ addr < cc.returnRegister + cc.wordBits / 8) →
      after.byteAt addr = before.byteAt addr
  stored : ∃ t, after.load (cc.word cc.returnRegister) cc.wordBits [] = .ok t ∧
    ∃ v ≤ cc.wordBits, value.HasSort (.bitVec v) ∧
      ∀ (m : Model) (x : BitVec v), value.Denotes m x → t.Denotes m (x.setWidth cc.wordBits)

/-- A returned value is in the return register, and nowhere else. -/
theorem returned_setReturn (hvalue : value.HasSort (.bitVec v)) (hle : v ≤ cc.wordBits)
    (h : cc.setReturn s value = .ok s') :
    cc.Returned s.registers s'.registers value := by
  obtain ⟨pos, le⟩ := cc.wordBits_bounds
  have hresized := Fold.hasSort_resize hvalue pos le
  have hplace : (BitVec.ofNat 64 cc.returnRegister).toNat = cc.returnRegister := by
    cases cc <;> rfl
  have hend : cc.returnRegister + cc.wordBits / 8 ≤ 2 ^ 64 ∧
      bytesFor cc.wordBits = cc.wordBits / 8 := by
    cases cc <;> decide
  rw [setReturn_eq] at h
  cases h
  constructor
  · intro addr haddr houtside
    have haddr' : (BitVec.ofNat 64 addr).toNat = addr := by
      rw [BitVec.toNat_ofNat, Nat.mod_eq_of_lt haddr]
    have hother : ∀ i < (Fold.toBytes s.registers.order (Fold.resize cc.wordBits value)).length,
        BitVec.ofNat 64 addr ≠ FlatMemory.place (BitVec.ofNat 64 cc.returnRegister) i := by
      intro i hi heq
      rw [Fold.length_toBytes, hresized.width_eq, hend.2] at hi
      have hfits : cc.returnRegister + i < ByteStore.addressSpace :=
        Nat.lt_of_lt_of_le (Nat.add_lt_add_left hi _) hend.1
      have hsame := congrArg BitVec.toNat heq
      rw [haddr', ← ByteStore.addressAt_toNat, hplace, ByteStore.addressAt,
        Nat.mod_eq_of_lt hfits] at hsame
      exact houtside (by omega)
    have hkept := ByteStore.byteAt_setBytes_outside (s := s.registers) hother
    rwa [haddr', hplace] at hkept
  · obtain ⟨t, hload, hback⟩ :=
      ByteStore.exists_load_stored hresized (BitVec.ofNat 64 cc.returnRegister)
    rw [hplace] at hload
    refine ⟨t, ?_, v, hle, hvalue, fun m x hx => hback (Fold.denotes_resize hx pos le)⟩
    rw [ByteStore.load, if_neg (Nat.not_lt.2 le), ByteStore.resolveAddress?,
      cc.addressValue?_returnRegister]
    exact hload

end Convention

/-! ## The parts of summaries -/

namespace Strlen

open Fold

variable {config : Config} {s s' : PathState} {string : Term} {bytes : List Term}
  {result : ReturnValue} {found : Scan}

/-- What holds of every byte that can be read holds of the bytes that a
search met. -/
theorem forall_mem_scanFrom {P : Term → Prop} {readByte : Nat → Except Failure Term}
    {window fuel index : Nat} {allKnown : Bool} {before : List Term}
    (hread : ∀ i t, readByte i = .ok t → P t) (hbefore : ∀ t ∈ before, P t)
    (h : scanFrom readByte window fuel index allKnown before = .ok found) :
    ∀ t ∈ found.bytes, P t := by
  have hreverse : ∀ t ∈ before.reverse, P t := fun t ht => hbefore t (List.mem_reverse.1 ht)
  induction fuel generalizing index allKnown before with
  | zero =>
    cases h
    exact hreverse
  | succ fuel ih =>
    rw [scanFrom] at h
    split at h
    · cases hbyte : readByte index with
      | error cause =>
        rw [hbyte] at h
        cases h
      | ok byte =>
        have hnext : ∀ t ∈ byte :: before, P t :=
          List.forall_mem_cons.2 ⟨hread index byte hbyte, hbefore⟩
        have hnext' : ∀ t ∈ (byte :: before).reverse, P t :=
          fun t ht => hnext t (List.mem_reverse.1 ht)
        rw [hbyte] at h
        dsimp only at h
        split at h
        · cases h
          exact hreverse
        · exact ih hnext h hnext'
        · exact ih hnext h hnext'
    · cases h
      exact hreverse

/-- What holds of every index, and of a choice between an index and a term
that it holds of, holds of a length. -/
theorem firstEnd_induction {P : Term → Prop} {word : Nat → Term} (hword : ∀ n, P (word n))
    (hchoice : ∀ t ∈ bytes, ∀ index rest, P rest → P (ite (isEnd t) (word index) rest)) :
    P (firstEnd word bytes) := by
  have hfrom (start : Nat) (last : Term) (hlast : P last) :
      P (firstEndFrom word start bytes last) := by
    induction bytes generalizing start with
    | nil => exact hlast
    | cons t ts ih =>
      obtain ⟨ht, hts⟩ := List.forall_mem_cons.1 hchoice
      rw [firstEndFrom_cons]
      exact ht start _ (ih hts (start + 1))
  rw [firstEnd_eq]
  exact hfrom 0 _ (hword _)

theorem hasSort_firstEnd (g : Guest) (hbytes : ∀ t ∈ bytes, t.HasSort (.bitVec 8)) :
    (firstEnd g.word bytes).HasSort (.bitVec g.wordBits) := by
  have hword (n : Nat) : (g.word n).HasSort (.bitVec g.wordBits) :=
    hasSort_lit g.wordBits_pos g.wordBits_le
  refine firstEnd_induction (P := fun t => t.HasSort (.bitVec g.wordBits)) hword
    fun t ht index rest hrest => ?_
  have htest : (isEnd t).HasSort .bool :=
    hasSort_compare .eq (hbytes t ht) (hasSort_lit (by decide) (by decide))
  exact hasSort_ite htest (hword index) hrest

/-- A byte that was read is one. -/
theorem hasSort_of_byteOf (hs : s.HoldsBitVectors) {index : Nat} {t : Term}
    (h : byteOf s string index = .ok t) : t.HasSort (.bitVec 8) := by
  obtain ⟨addr, -, hload⟩ := fault_bind_eq_ok_iff.1 h
  obtain ⟨byte, hbyte, hsort⟩ :=
    ByteStore.hasSort_load (w := 8) hs.memory addr s.constraints (by decide) (by decide)
  cases hbyte.symm.trans hload
  exact hsort

/-- A length that was found is one word, and comes with at most one
constraint. -/
theorem footprint_run (hs : s.HoldsBitVectors) (fd : Nat)
    (h : Execution.runOn (run config string) s = (.ok result, s')) :
    Footprint fd 0 1 s s' ∧ s'.registers = s.registers ∧
      ∃ length, result = some length ∧ length.HasSort (.bitVec s.guest.wordBits) := by
  cases hscan : scan config s string with
  | error cause =>
    rw [runOn_run_of_error hscan] at h
    cases h
  | ok found =>
    have hlength := hasSort_firstEnd s.guest (forall_mem_scanFrom
      (fun _ _ => hasSort_of_byteOf hs) (List.forall_mem_nil _) hscan)
    rw [runOn_run hscan] at h
    split at h
    · split at h
      · cases h
      · cases h
        exact ⟨.addConstraint fd s _, rfl, _, rfl, hlength⟩
    · cases h
      exact ⟨(Footprint.refl fd s).weaken (Nat.zero_le 1), rfl, _, rfl, hlength⟩

end Strlen

namespace Summary

open Execution Strlen

variable {config : Config} {s s' : PathState} {fd buffer count string char : Term}
  {result : ReturnValue}

theorem hasSort_of_bufferBytes (hs : s.HoldsBitVectors) {n : Nat} {data : List Term}
    (h : bufferBytes s buffer n = .ok data) : ∀ t ∈ data, t.HasSort (.bitVec 8) := by
  intro t ht
  obtain ⟨i, -, hread⟩ := exists_of_mem_mapM h ht
  exact hasSort_of_byteOf hs hread

theorem footprint_writeBuffer (hs : s.HoldsBitVectors)
    (h : runOn (writeBuffer config fd buffer count) s = (.ok result, s')) :
    ∃ place, fd.addressValue? = some place ∧ Footprint place 1 0 s s' ∧
      s'.registers = s.registers ∧ result = none := by
  obtain ⟨place, n, data, hfd, -, hdata, rfl, rfl⟩ := of_writeBuffer h
  exact ⟨place, hfd, .append s (hasSort_of_bufferBytes hs hdata), rfl, rfl⟩

theorem footprint_writeChar (hchar : ∃ sort, char.HasSort sort)
    (h : runOn (writeChar char) s = (.ok result, s')) :
    Footprint standardOutput 1 0 s s' ∧ s'.registers = s.registers ∧ result = some char := by
  obtain ⟨byte, hextract, h⟩ := exists_of_runOn_read_bind_ok h
  obtain ⟨_, s₂, hget, h⟩ := exists_of_runOn_bind_ok h
  cases hget
  obtain ⟨_, s₃, hrecord, h⟩ := exists_of_runOn_bind_ok h
  rw [PathState.word] at hrecord
  rw [runOn_record (addressValue?_standardOutput s.guest)] at hrecord
  cases hrecord
  cases h
  have hbyte : byte.HasSort (.bitVec 8) := by
    obtain ⟨⟨-, hlt⟩, rfl⟩ := Build.of_extract (Failure.ofFault_eq_ok_iff.1 hextract)
    obtain ⟨sort, hsort⟩ := hchar
    cases sort with
    | bool =>
      rw [Term.width, hsort.sort_eq] at hlt
      cases hlt
    | bitVec w => exact Fold.hasSort_extract (by decide) (hsort.width_eq ▸ hlt) hsort
  exact ⟨.append s (List.forall_mem_singleton.2 hbyte), rfl, rfl⟩

/-- The length, the string and the newline. -/
theorem footprint_writeLine (hs : s.HoldsBitVectors)
    (h : runOn (writeLine config string) s = (.ok result, s')) :
    Footprint standardOutput 2 1 s s' ∧ s'.registers = s.registers ∧ result = none := by
  obtain ⟨found, s₁, length, n, data, hstrlen, -, -, hdata, rfl, rfl⟩ := of_writeLine h
  obtain ⟨hlength, hregisters, -⟩ := footprint_run hs standardOutput hstrlen
  have hbytes := hasSort_of_bufferBytes (hlength.holdsBitVectors hs hregisters) hdata
  have hnewline : ∀ t ∈ (newline s.guest).data, t.HasSort (.bitVec 8) :=
    List.forall_mem_singleton.2 (Fold.hasSort_lit (by decide) (by decide))
  exact ⟨(hlength.trans (.append s₁ hbytes)).trans (.append _ hnewline), hregisters, rfl⟩

end Summary

/-! ## Summaries as a whole -/

namespace BuiltIn

open Execution Strlen Summary

variable {config : Config} {s s' : PathState} {b : BuiltIn} {args : List Term}
  {result : ReturnValue}

/-- How many records the summary adds. -/
def records : BuiltIn → Nat
  | strlen => 0
  | puts => 2
  | putchar | write => 1

/-- How many constraints the summary adds at most. -/
def limit : BuiltIn → Nat
  | strlen | puts => 1
  | putchar | write => 0

/-- Whether the summary says what it returns. -/
def returns : BuiltIn → Bool
  | strlen | putchar => true
  | puts | write => false

/-- The descriptor of the records, if there are any. -/
def WritesTo (args : List Term) (fd : Nat) : BuiltIn → Prop
  | strlen => True
  | puts | putchar => fd = standardOutput
  | write => ∃ t rest, args = t :: rest ∧ t.addressValue? = some fd

theorem ret_ne_void (b : BuiltIn) : b.summary.signature.ret ≠ .void := by
  cases b <;> exact nofun

/-- A body stays within the footprint of its summary, and changes no
register.  What it returns is a word, or one of its arguments. -/
theorem footprint_body (hs : s.HoldsBitVectors) (hargs : ∀ t ∈ args, ∃ sort, t.HasSort sort)
    (h : runOn (b.summary.body config args) s = (.ok result, s')) :
    (∃ fd, b.WritesTo args fd ∧ Footprint fd b.records b.limit s s') ∧
      s'.registers = s.registers ∧ result.isSome = b.returns ∧
      ∀ value, result = some value → value.HasSort (.bitVec s.guest.wordBits) ∨ value ∈ args := by
  cases b with
  | strlen =>
    simp only [summary, Summary.strlen] at h
    split at h
    · obtain ⟨hfoot, hregisters, length, rfl, hlength⟩ := footprint_run hs 0 h
      refine ⟨⟨0, trivial, hfoot⟩, hregisters, rfl, ?_⟩
      rintro value ⟨⟩
      exact .inl hlength
    · cases h
  | puts =>
    simp only [summary, Summary.puts] at h
    split at h
    · obtain ⟨hfoot, hregisters, rfl⟩ := footprint_writeLine hs h
      refine ⟨⟨_, rfl, hfoot⟩, hregisters, rfl, ?_⟩
      rintro _ ⟨⟩
    · cases h
  | putchar =>
    simp only [summary, Summary.putchar] at h
    split at h
    · rename_i char
      obtain ⟨hfoot, hregisters, rfl⟩ := footprint_writeChar (hargs char List.mem_cons_self) h
      refine ⟨⟨_, rfl, hfoot⟩, hregisters, rfl, ?_⟩
      rintro value ⟨⟩
      exact .inr List.mem_cons_self
    · cases h
  | write =>
    simp only [summary, Summary.write] at h
    split at h
    · obtain ⟨place, hfd, hfoot, hregisters, rfl⟩ := footprint_writeBuffer hs h
      refine ⟨⟨place, ⟨_, _, rfl, hfd⟩, hfoot⟩, hregisters, rfl, ?_⟩
      rintro _ ⟨⟩
    · cases h

/-- A returned value goes to the return register. -/
theorem footprint_return {cc : Convention} {summary : Summary} {value : Term} {v : Nat}
    (hret : summary.signature.ret ≠ .void) (hvalue : value.HasSort (.bitVec v))
    (hle : v ≤ cc.wordBits) (fd : Nat)
    (h : runOn (do
      if summary.signature.ret ≠ .void then update (cc.setReturn · value)
      return some value) s = (.ok result, s')) :
    result = some value ∧ Footprint fd 0 0 s s' ∧
      cc.Returned s.registers s'.registers value := by
  rw [if_pos hret] at h
  obtain ⟨_, s₁, hupdate, h⟩ := exists_of_runOn_bind_ok h
  rw [runOn_update, cc.setReturn_eq] at hupdate
  cases hupdate
  cases h
  exact ⟨rfl, .setRegisters fd s _,
    Convention.returned_setReturn hvalue hle (cc.setReturn_eq s value)⟩

/-- A call of a built-in summary that succeeds stays within its footprint.  On
given arguments it changes no register.  As the guest calls it, it changes
the return register if it returns a value, which is then there, and no
register otherwise. -/
theorem footprint (hs : s.HoldsBitVectors) (config : Config) (b : BuiltIn) :
    (∀ args, (∀ t ∈ args, ∃ sort, t.HasSort sort) →
      ∀ result s', (b.summary.inlineCall config args).runOn s = (.ok result, s') →
        (∃ fd, b.WritesTo args fd ∧ Footprint fd b.records b.limit s s') ∧
        s'.registers = s.registers) ∧
    ∀ cc : Convention, cc.wordBits = s.guest.wordBits →
      ∀ result s', (b.summary.invoke config cc).runOn s = (.ok result, s') →
        (∃ args fd, cc.arguments b.summary.name b.summary.signature s = .ok args ∧
          b.WritesTo args fd ∧ Footprint fd b.records b.limit s s') ∧
        result.isSome = b.returns ∧
        (result = none → s'.registers = s.registers) ∧
        ∀ value, result = some value → cc.Returned s.registers s'.registers value := by
  constructor
  · intro args hargs result s' h
    unfold inlineCall at h
    split at h
    · obtain ⟨hfoot, hregisters, -⟩ := footprint_body hs hargs h
      exact ⟨hfoot, hregisters⟩
    · cases h
  · intro cc hword result s' h
    obtain ⟨args, hargs, h⟩ := exists_of_runOn_read_bind_ok h
    obtain ⟨found, s₁, hbody, h⟩ := exists_of_runOn_bind_ok h
    have hwidths := Convention.exists_width_of_mem_arguments hs hargs
    have hsorts : ∀ t ∈ args, ∃ sort, t.HasSort sort := by
      intro t ht
      obtain ⟨w, -, hsort⟩ := hwidths t ht
      exact ⟨_, hsort⟩
    obtain ⟨⟨fd, hfd, hfoot⟩, hregisters, hreturns, hvalue⟩ := footprint_body hs hsorts hbody
    cases found with
    | none =>
      cases h
      exact ⟨⟨args, fd, hargs, hfd, hfoot⟩, hreturns, fun _ => hregisters, nofun⟩
    | some value =>
      have hwidth : ∃ v ≤ cc.wordBits, value.HasSort (.bitVec v) := by
        rcases hvalue value rfl with hsort | hmem
        · exact ⟨_, hword.ge, hsort⟩
        · exact hwidths value hmem
      obtain ⟨v, hle, hsort⟩ := hwidth
      obtain ⟨rfl, hfoot', hreturned⟩ :=
        footprint_return b.ret_ne_void hsort hle fd h
      refine ⟨⟨args, fd, hargs, hfd, hfoot.trans hfoot'⟩, hreturns, nofun, ?_⟩
      rintro value ⟨⟩
      exact hregisters ▸ hreturned

/-- The length of a string of two letters comes back in a register, and the
string is written with a newline. -/
theorem footprint_stringPath :
    ∃ s' s'', (strlen.summary.invoke {} .amd64SysV).runOn stringPath =
        (.ok (some (.const 2 64)), s') ∧
      s'.memory = stringPath.memory ∧
      Convention.amd64SysV.Returned stringPath.registers s'.registers (.const 2 64) ∧
      (puts.summary.inlineCall {} [.const 0x1000 64]).runOn stringPath = (.ok none, s'') ∧
      s''.registers = stringPath.registers ∧ (s''.channels.writes standardOutput).length = 2 := by
  have hlength : ((strlen.summary.invoke {} .amd64SysV).runOn stringPath).1 =
      .ok (some (.const 2 64)) := by
    rfl
  have hline : ((puts.summary.inlineCall {} [.const 0x1000 64]).runOn stringPath).1 =
      .ok none := by
    rfl
  have hargs : ∀ t ∈ [Term.const 0x1000 64], ∃ sort, t.HasSort sort :=
    List.forall_mem_singleton.2 ⟨_, hasSort_pointer⟩
  obtain ⟨⟨_, _, -, -, hfoot⟩, -, -, hreturned⟩ :=
    (footprint holdsBitVectors_stringPath {} strlen).2 .amd64SysV rfl _ _ (Prod.ext hlength rfl)
  obtain ⟨⟨_, rfl, hfoot'⟩, hregisters⟩ :=
    (footprint holdsBitVectors_stringPath {} puts).1 _ hargs _ _ (Prod.ext hline rfl)
  obtain ⟨more, hwrites, hcount, -⟩ := hfoot'.writes
  have hnone : stringPath.channels.writes standardOutput = [] := by rfl
  refine ⟨_, _, Prod.ext hlength rfl, hfoot.memory, hreturned _ rfl, Prod.ext hline rfl,
    hregisters, ?_⟩
  rw [hwrites, hnone, List.nil_append, hcount]
  rfl

end BuiltIn

end SymLift
