import SymLift.Proofs.Arguments
import SymLift.Proofs.Machine

/-!
# Where arguments are found

`Convention.arguments` reads words at offsets of the register file, or off
the stack.  The places are stated here by themselves: registers by name, and
words of the stack by address.

* `ArgRegister.offset` is the place of a register in the register file, and
  `Convention.passes?` lists the registers of a convention in order.
* `Misfit` says what is wrong with an argument that has no place, and
  `FirstMisfit` that it is the first such argument.  `checkArgs_eq_error_iff`:
  that is what the check reports.
* `denotes_slot_register` and `denotes_slot_stack`: the word of each place.
* `passesArguments` puts these together: what the check rejects, with what
  error, and what every argument is otherwise.
-/

namespace SymLift

/-! ## Places -/

/-- The registers of 64 bits that arguments are passed in. -/
inductive ArgRegister where
  | rcx
  | rdx
  | rsi
  | rdi
  | r8
  | r9
  | r10
  deriving DecidableEq

namespace ArgRegister

/-- The number that instructions give a register. -/
def number : ArgRegister → Nat
  | rcx => 1
  | rdx => 2
  | rsi => 6
  | rdi => 7
  | r8 => 8
  | r9 => 9
  | r10 => 10

/-- The register file has 16 bytes of its own, and then the registers in the
order of their numbers. -/
def offset (r : ArgRegister) : Nat := 16 + 8 * r.number

end ArgRegister

namespace PathState

/-- The number in a register under a model. -/
def registerWord (s : PathState) (m : Model) (r : ArgRegister) : Nat :=
  ByteOrder.little.number ((s.registers.flat m).read (BitVec.ofNat 64 r.offset) 8)

/-- The number in the four bytes at an address under a model. -/
def stackWord (s : PathState) (m : Model) (addr : Nat) : Nat :=
  ByteOrder.little.number ((s.memory.flat m).read (BitVec.ofNat 64 addr) 4)

/-- The stack pointer of 32 bits, which is after the registers of number 0
to 3 and a field of 8 bytes, is a constant. -/
def StackAt (s : PathState) (esp : Nat) : Prop :=
  s.registers.load (.const (8 + 4 * 4) 32) 32 [] = .ok (.const esp 32)

end PathState

namespace Convention

/-- The registers that arguments are passed in, in order.  There are none
where every argument is on the stack. -/
def passes? : Convention → Option (List ArgRegister)
  | amd64SysV => some [.rdi, .rsi, .rdx, .rcx, .r8, .r9]
  | amd64Syscall => some [.rdi, .rsi, .rdx, .r10, .r8, .r9]
  | x86Cdecl => none

/-- A signature has more arguments than there are registers, and there is no
place for the others. -/
def Crowded (cc : Convention) (sig : Signature) : Prop :=
  ∃ registers, cc.passes? = some registers ∧ registers.length < sig.args.length

/-- What is wrong with an argument that fits no place: it is void, or wider
than a word. -/
inductive Misfit (cc : Convention) (index : Nat) : CType → Mismatch → Prop where
  | void : Misfit cc index .void (.voidArgument index)
  | wide {ty : CType} {w : Nat} (hw : ty.width? cc.wordBits = some w) (lt : cc.wordBits < w) :
      Misfit cc index ty (.wideArgument index ty cc.wordBits)

/-- What is wrong with the first argument that fits no place.  The arguments
are counted from `start`. -/
def FirstMisfit (cc : Convention) (start : Nat) (tys : List CType) (reason : Mismatch) : Prop :=
  ∃ i ty, tys[i]? = some ty ∧ cc.Misfit (start + i) ty reason ∧
    ∀ j < i, ∀ other, tys[j]? = some other → ∀ earlier, ¬cc.Misfit (start + j) other earlier

/-- An argument of `w` bits is the low bits of the word in its place. -/
structure InPlace (cc : Convention) (s : PathState) (m : Model) (index w : Nat) (arg : Term) :
    Prop where
  register : ∀ registers, cc.passes? = some registers → ∃ r, registers[index]? = some r ∧
    arg.Denotes m (BitVec.ofNat w (s.registerWord m r))
  /-- The first argument is just above the return address. -/
  stack : cc.passes? = none → ∀ esp, s.StackAt esp →
    arg.Denotes m (BitVec.ofNat w (s.stackWord m ((esp + 4 + 4 * index) % 2 ^ 32)))

variable {cc : Convention} {s : PathState} {m : Model} {ty : CType} {tys : List CType}
  {sig : Signature} {name : String} {args : List Term} {reason : Mismatch}
  {registers : List ArgRegister}

/-- The convention finds its registers at their offsets. -/
theorem argRegisters_eq (h : cc.passes? = some registers) :
    cc.argRegisters = registers.map ArgRegister.offset ∧ cc.wordBits = 64 ∧
      cc.stackPointer? = none := by
  cases cc <;> cases h <;> exact ⟨rfl, rfl, rfl⟩

theorem eq_x86Cdecl (h : cc.passes? = none) : cc = x86Cdecl := by
  cases cc with
  | x86Cdecl => rfl
  | _ => cases h

theorem crowded_iff :
    cc.Crowded sig ↔ cc.stackPointer?.isNone ∧ cc.argRegisters.length < sig.args.length := by
  cases cc <;> simp [Crowded, passes?, stackPointer?, argRegisters]

/-! ## What the check reports -/

theorem checkArg_eq_error_iff (index : Nat) :
    cc.checkArg index ty = .error reason ↔ cc.Misfit index ty reason := by
  unfold checkArg
  constructor
  · intro h
    split at h
    · rename_i hvoid
      cases h
      cases ty with
      | void => exact .void
      | _ => cases hvoid
    · rename_i w hw
      split at h
      · rename_i lt
        cases h
        exact .wide hw lt
      · cases h
  · rintro (_ | ⟨hw, lt⟩)
    · rfl
    · rw [hw]
      exact if_pos lt

/-- A list of arguments is rejected for the first that fits no place. -/
theorem checkArgs_eq_error_iff (start : Nat) :
    cc.checkArgs start tys = .error reason ↔ cc.FirstMisfit start tys reason := by
  induction tys generalizing start with
  | nil =>
    constructor
    · intro h
      cases h
    · rintro ⟨i, ty, hty, -⟩
      cases hty
  | cons ty tys ih =>
    rw [checkArgs]
    cases hfirst : cc.checkArg start ty with
    | error first =>
      have hmisfit := (checkArg_eq_error_iff start).1 hfirst
      constructor
      · intro h
        cases h
        exact ⟨0, ty, rfl, hmisfit, fun j hj => absurd hj j.not_lt_zero⟩
      · rintro ⟨i, found, hfound, hreason, hbefore⟩
        cases i with
        | zero =>
          cases hfound
          exact congrArg _ (Except.error.inj
            (hfirst.symm.trans ((checkArg_eq_error_iff start).2 hreason)))
        | succ i => exact absurd hmisfit (hbefore 0 i.succ_pos ty rfl first)
    | ok =>
      have hfits (earlier : Mismatch) : ¬cc.Misfit start ty earlier := by
        intro hmisfit
        cases hfirst.symm.trans ((checkArg_eq_error_iff start).2 hmisfit)
      rw [ok_bind, ih (start + 1)]
      have hshift (i : Nat) : start + 1 + i = start + (i + 1) := by omega
      constructor
      · rintro ⟨i, found, hfound, hreason, hbefore⟩
        refine ⟨i + 1, found, hfound, hshift i ▸ hreason, fun j hj other hother => ?_⟩
        cases j with
        | zero =>
          cases hother
          exact hfits
        | succ j => exact hshift j ▸ hbefore j (Nat.lt_of_succ_lt_succ hj) other hother
      · rintro ⟨i, found, hfound, hreason, hbefore⟩
        cases i with
        | zero =>
          cases hfound
          exact absurd hreason (hfits reason)
        | succ i =>
          refine ⟨i, found, hfound, (hshift i).symm ▸ hreason, fun j hj other hother => ?_⟩
          exact (hshift j).symm ▸ hbefore (j + 1) (Nat.succ_lt_succ hj) other hother

/-- Too many arguments are reported before any of them is looked at. -/
theorem check_of_crowded (h : cc.passes? = some registers)
    (hmany : registers.length < sig.args.length) :
    cc.check name sig = .error (.summaryArgumentMismatch name
      (.tooManyArguments cc.name registers.length sig.args.length)) := by
  have hcrowded := crowded_iff.1 ⟨registers, h, hmany⟩
  rw [check, checkSignature, if_pos hcrowded, (argRegisters_eq h).1, List.length_map]
  rfl

theorem check_eq_error_iff (h : ¬cc.Crowded sig) :
    (∃ cause, cc.check name sig = .error cause) ↔ ∃ reason, cc.FirstMisfit 0 sig.args reason := by
  simp only [← checkArgs_eq_error_iff]
  rw [check, checkSignature, if_neg (crowded_iff.not.1 h)]
  cases cc.checkArgs 0 sig.args with
  | error reason => exact iff_of_true ⟨_, rfl⟩ ⟨_, rfl⟩
  | ok =>
    constructor <;>
    · rintro ⟨_, h⟩
      cases h

theorem check_of_firstMisfit (h : ¬cc.Crowded sig) (hfirst : cc.FirstMisfit 0 sig.args reason) :
    cc.check name sig = .error (.summaryArgumentMismatch name reason) := by
  rw [check, checkSignature, if_neg (crowded_iff.not.1 h), (checkArgs_eq_error_iff 0).2 hfirst]
  rfl

/-- Some argument fits no place if and only if there is a first one. -/
theorem exists_firstMisfit_iff :
    (∃ reason, cc.FirstMisfit 0 tys reason) ↔
      ∃ ty ∈ tys, ty = .void ∨ ∃ w, ty.width? cc.wordBits = some w ∧ cc.wordBits < w := by
  constructor
  · rintro ⟨reason, i, ty, hty, hmisfit, -⟩
    refine ⟨ty, List.mem_of_getElem? hty, ?_⟩
    cases hmisfit with
    | void => exact .inl rfl
    | wide hw lt => exact .inr ⟨_, hw, lt⟩
  · rintro ⟨ty, hmem, hunfit⟩
    simp only [← checkArgs_eq_error_iff]
    cases hcheck : cc.checkArgs 0 tys with
    | error reason => exact ⟨reason, rfl⟩
    | ok =>
      obtain ⟨w, hw, le⟩ := (checkArgs_eq_ok_iff 0).1 hcheck ty hmem
      rcases hunfit with rfl | ⟨v, hv, lt⟩
      · cases hw
      · cases hw.symm.trans hv
        exact absurd lt (Nat.not_lt.2 le)

/-! ## The words in the places -/

/-- A load at a constant address of a store. -/
theorem denotes_load_lit {store : ByteStore} (hstore : store.CellsWellFormed) (hm : m.Total)
    {addr v w : Nat} (hlt : addr < 2 ^ 64) (known : List Term) (pos : 0 < w)
    (le : w ≤ Word.maxBits) :
    ∃ t, store.load (.const addr v) w known = .ok t ∧ t.Denotes m (BitVec.ofNat w
      (store.order.number ((store.flat m).read (BitVec.ofNat 64 addr) (bytesFor w)))) := by
  obtain ⟨t, hload, ht⟩ :=
    ByteStore.denotes_loadConcrete hstore hm (BitVec.ofNat 64 addr) pos le
  rw [BitVec.toNat_ofNat, Nat.mod_eq_of_lt hlt] at hload
  have hplace := ByteStore.resolveAddress?_const hlt v known
  exact ⟨t, (ByteStore.load_of_resolveAddress? _ hplace le).trans hload, ht⟩

/-- A register of a convention holds its word. -/
theorem denotes_slot_register (hs : s.WellFormed) (hm : m.Total) (h : cc.passes? = some registers)
    {index : Nat} {r : ArgRegister} (hr : registers[index]? = some r) :
    ∃ t, cc.slot s index = .ok t ∧
      t.Denotes m (BitVec.ofNat cc.wordBits (s.registerWord m r)) := by
  obtain ⟨hoffsets, hbits, -⟩ := argRegisters_eq h
  have hslot : cc.argRegisters[index]? = some r.offset := by
    rw [hoffsets, List.getElem?_map, hr, Option.map_some]
  have hword : cc.word r.offset = .const r.offset 64 := by
    rw [word, hbits]
    cases r <;> rfl
  have hlt : r.offset < 2 ^ 64 := by
    cases r <;> decide
  obtain ⟨t, hload, ht⟩ := denotes_load_lit hs.registers hm hlt [] (w := 64) (by decide) (by decide)
  have horder : s.registers.order = .little := by
    rw [hs.registerOrder]
    cases s.guest <;> rfl
  rw [horder] at ht
  refine ⟨t, ?_, ?_⟩
  · rw [slot, hslot]
    dsimp only
    rw [hword, hbits]
    exact hload
  · rw [hbits]
    exact ht

/-- The address of a word on the stack. -/
theorem add_word_stack (esp index : Nat) :
    Build.binary .add (.const esp 32) (x86Cdecl.word (x86Cdecl.wordBits / 8 * (index + 1))) =
      .ok (.const ((esp + 4 + 4 * index) % 2 ^ 32) 32) := by
  have hcut (value : Nat) : Word.truncate 32 value = value % 2 ^ 32 := by
    rw [Word.truncate_eq (by decide), BitVec.toNat_ofNat]
  have hfolded : Build.binary .add (.const esp 32)
      (x86Cdecl.word (x86Cdecl.wordBits / 8 * (index + 1))) = .ok (.const (Word.truncate 32
        (Word.truncate 32 (esp + Word.truncate 32 (4 * (index + 1))))) 32) :=
    Build.binary_ok rfl
  rw [hfolded, hcut, hcut, hcut]
  congr 2
  omega

/-- A word on the stack is at its address, if the stack pointer is known. -/
theorem denotes_slot_stack (hs : s.WellFormed) (hm : m.Total) {esp : Nat} (hesp : s.StackAt esp)
    (index : Nat) : ∃ t, x86Cdecl.slot s index = .ok t ∧
      t.Denotes m (BitVec.ofNat 32 (s.stackWord m ((esp + 4 + 4 * index) % 2 ^ 32))) := by
  have hplace : (esp + 4 + 4 * index) % 2 ^ 32 < 2 ^ 64 := by omega
  obtain ⟨raw, hload, hraw⟩ :=
    denotes_load_lit hs.memory hm (v := 32) hplace s.constraints (w := 32) (by decide) (by decide)
  have horder : s.guest.order = .little := by
    cases s.guest <;> rfl
  rw [hs.memoryOrder] at hraw
  have hfix : Build.reverseBytes raw = .ok (Fold.reverseBytes raw) :=
    Build.reverseBytes_ok (hraw.width_eq ▸ by decide)
  have hslot : x86Cdecl.slot s index = x86Cdecl.stackSlot s (8 + 4 * 4) index := rfl
  refine ⟨Fold.reverseBytes raw, ?_, ?_⟩
  · have htop : s.registers.load (x86Cdecl.word (8 + 4 * 4)) x86Cdecl.wordBits [] =
        .ok (.const esp 32) := hesp
    have hraw : s.memory.load (.const ((esp + 4 + 4 * index) % 2 ^ 32) 32) x86Cdecl.wordBits
        s.constraints = .ok raw := hload
    rw [hslot, stackSlot, htop, ok_bind, add_word_stack, fault_ok_bind, hraw, ok_bind, horder,
      Build.fixOrder, hfix]
    rfl
  · have hword : (Fold.reverseBytes raw).Denotes m (BitVec.ofNat IR.Ty.i32.width
        (ByteOrder.little.number ((s.memory.flat m).read
          (BitVec.ofNat 64 ((esp + 4 + 4 * index) % 2 ^ 32)) (bytesFor 32)))) :=
      PathState.denotes_fixOrder (FlatMemory.length_read ..) hraw hfix
    exact hword

/-! ## The arguments -/

/-- An argument is its slot at its declared width. -/
theorem of_argumentsFrom {start : Nat} (h : cc.argumentsFrom s start tys = .ok args) :
    args.length = tys.length ∧ ∀ {i : Nat} {ty : CType} {arg : Term}, tys[i]? = some ty →
      args[i]? = some arg → ∃ word, cc.slot s (start + i) = .ok word ∧
        Build.resize ((ty.width? cc.wordBits).getD cc.wordBits) word = .ok arg := by
  induction tys generalizing start args with
  | nil =>
    cases h
    exact ⟨rfl, nofun⟩
  | cons ty tys ih =>
    rw [argumentsFrom] at h
    obtain ⟨word, hslot, h⟩ := bind_eq_ok_iff.1 h
    obtain ⟨first, hfirst, h⟩ := fault_bind_eq_ok_iff.1 h
    obtain ⟨rest, hrest, h⟩ := bind_eq_ok_iff.1 h
    cases h
    obtain ⟨hlength, hargs⟩ := ih hrest
    refine ⟨congrArg Nat.succ hlength, fun {i} {_} {_} hty harg => ?_⟩
    cases i with
    | zero =>
      cases hty
      cases harg
      exact ⟨word, hslot, hfirst⟩
    | succ i =>
      have hshift : start + 1 + i = start + (i + 1) := by omega
      exact hshift ▸ hargs hty harg

/-- The low bits of a word that a slot holds. -/
theorem denotes_resize_word {word arg : Term} {v w n : Nat}
    (hword : word.Denotes m (BitVec.ofNat v n)) (pos : 0 < w) (le : w ≤ v)
    (h : Build.resize w word = .ok arg) : arg.Denotes m (BitVec.ofNat w n) := by
  have hfits := le.trans hword.width_le
  rw [Build.resize_ok pos hfits] at h
  cases h
  refine (Fold.denotes_resize hword pos hfits).congr rfl ?_
  rw [BitVec.toNat_setWidth, BitVec.toNat_ofNat, BitVec.toNat_ofNat,
    Nat.mod_mod_of_dvd _ (Nat.pow_dvd_pow 2 le)]

/-- What a convention says of a signature and of its arguments in a state. -/
structure PassesArguments (cc : Convention) (name : String) (sig : Signature) (s : PathState) :
    Prop where
  /-- The check fails if arguments have no place left, or one fits none. -/
  fails : (∃ cause, cc.check name sig = .error cause) ↔ cc.Crowded sig ∨
    ∃ ty ∈ sig.args, ty = .void ∨ ∃ w, ty.width? cc.wordBits = some w ∧ cc.wordBits < w
  /-- The number of arguments comes before the arguments. -/
  crowded : ∀ registers, cc.passes? = some registers → registers.length < sig.args.length →
    cc.check name sig = .error (.summaryArgumentMismatch name
      (.tooManyArguments cc.name registers.length sig.args.length))
  misfit : ¬cc.Crowded sig → ∀ reason, cc.FirstMisfit 0 sig.args reason →
    cc.check name sig = .error (.summaryArgumentMismatch name reason)
  /-- Every argument is read from its place. -/
  reads : cc.check name sig = .ok () → ∃ args, cc.arguments name sig s = .ok args ∧
    args.length = sig.args.length ∧ ∀ m : Model, m.Total → ∀ (i : Nat) ty arg w,
      sig.args[i]? = some ty → args[i]? = some arg → ty.width? cc.wordBits = some w →
      cc.InPlace s m i w arg

theorem passesArguments (hs : s.WellFormed) (cc : Convention) (name : String)
    (hpos : ∀ width signed, .int width signed ∈ sig.args → 1 ≤ width.toNat) :
    cc.PassesArguments name sig s where
  fails := by
    rw [← exists_firstMisfit_iff]
    by_cases hcrowded : cc.Crowded sig
    · obtain ⟨registers, hpasses, hmany⟩ := hcrowded
      exact iff_of_true ⟨_, check_of_crowded hpasses hmany⟩ (.inl ⟨registers, hpasses, hmany⟩)
    · rw [or_iff_right hcrowded, check_eq_error_iff hcrowded]
  crowded := fun _ => check_of_crowded
  misfit := fun hcrowded _ => check_of_firstMisfit hcrowded
  reads := by
    intro hcheck
    have hsome : ¬∃ signed, .int 0 signed ∈ sig.args := fun ⟨signed, hmem⟩ =>
      absurd (hpos 0 signed hmem) (by decide)
    obtain ⟨args, hread, hsorts⟩ := arguments_ok hs.holdsBitVectors.cells hcheck hsome
    refine ⟨args, hread, hsorts.length_eq.symm, fun m hm i ty arg w hty harg hw => ?_⟩
    rw [arguments, hcheck, ok_bind] at hread
    obtain ⟨word, hslot, hresize⟩ := (of_argumentsFrom hread).2 hty harg
    rw [Nat.zero_add] at hslot
    rw [hw, Option.getD_some] at hresize
    obtain ⟨hplaces, hfits⟩ := check_eq_ok_iff.1 hcheck
    have hmem := List.mem_of_getElem? hty
    have le : w ≤ cc.wordBits := by
      obtain ⟨v, hv, le⟩ := hfits ty hmem
      exact Option.some.inj (hw.symm.trans hv) ▸ le
    have pos : 0 < w := by
      refine Nat.pos_of_ne_zero fun hzero => hsome ?_
      obtain ⟨signed, rfl⟩ := width?_eq_zero_iff.1 (hzero ▸ hw)
      exact ⟨signed, hmem⟩
    constructor
    · intro registers hpasses
      have hlt : i < registers.length := by
        have hi := (List.getElem?_eq_some_iff.1 hty).1
        by_contra hge
        exact hplaces (crowded_iff.1 ⟨registers, hpasses, by omega⟩)
      refine ⟨registers[i], List.getElem?_eq_getElem hlt, ?_⟩
      obtain ⟨t, ht, hvalue⟩ :=
        denotes_slot_register hs hm hpasses (List.getElem?_eq_getElem hlt)
      obtain rfl := Except.ok.inj (hslot.symm.trans ht)
      exact denotes_resize_word hvalue pos le hresize
    · intro hpasses esp hesp
      obtain rfl := eq_x86Cdecl hpasses
      obtain ⟨t, ht, hvalue⟩ := denotes_slot_stack hs hm hesp i
      obtain rfl := Except.ok.inj (hslot.symm.trans ht)
      exact denotes_resize_word hvalue pos le hresize

/-- A routine of a string and an integer of twelve bits. -/
def mixedSignature : Signature := { args := [.string, .int 12 true], ret := .void }

/-- A path with some bytes in its register file, and some on its stack. -/
def passingPath (guest : Guest) (offset : BitVec 64) (registers stack : List UInt8) : PathState :=
  { PathState.start guest with
    registers := (PathState.start guest).registers.storeBytes offset.toNat registers
    memory := (PathState.start guest).memory.storeBytes 0x8004 stack }

theorem wellFormed_passingPath (guest : Guest) (offset : BitVec 64)
    (registers stack : List UInt8) :
    (passingPath guest offset registers stack).WellFormed := by
  have hstart := PathState.wellFormed_start guest
  obtain ⟨hregisters, hregisterOrder⟩ :=
    ByteStore.cellsWellFormed_access hstart.registers (a := .storeBytes offset registers) trivial
  obtain ⟨hmemory, hmemoryOrder⟩ :=
    ByteStore.cellsWellFormed_access hstart.memory (a := .storeBytes 0x8004 stack) trivial
  exact {
    registers := hregisters
    memory := hmemory
    registerOrder := hregisterOrder.trans hstart.registerOrder
    memoryOrder := hmemoryOrder.trans hstart.memoryOrder
    temps := hstart.temps }

/-- The second argument is the low bits of `rsi`, or of the second word
above the return address. -/
theorem passesArguments_mixed :
    let m : Model := fun _ => some 0
    let inRegisters := passingPath .amd64 64 [0x23, 0xf1, 0xff, 0xff, 0, 0, 0, 0] []
    let onStack := passingPath .x86 24 [0, 0x80, 0, 0] [0, 0, 0, 0, 0x23, 0xf1, 0xff, 0xff]
    (∃ args arg, amd64SysV.arguments "f" mixedSignature inRegisters = .ok args ∧
      args[1]? = some arg ∧ arg.Denotes m (0x123 : BitVec 12)) ∧
    ∃ args arg, x86Cdecl.arguments "f" mixedSignature onStack = .ok args ∧
      args[1]? = some arg ∧ arg.Denotes m (0x123 : BitVec 12) := by
  intro m inRegisters onStack
  have hm : m.Total := fun _ => ⟨0, rfl⟩
  have hpos : ∀ width signed, .int width signed ∈ mixedSignature.args → 1 ≤ width.toNat := by
    intro width signed hmem
    simp only [mixedSignature, List.mem_cons, List.not_mem_nil, or_false, reduceCtorEq, false_or,
      CType.int.injEq] at hmem
    rw [hmem.1]
    decide
  have hregisters : inRegisters.WellFormed := wellFormed_passingPath ..
  have hstack : onStack.WellFormed := wellFormed_passingPath ..
  constructor
  · obtain ⟨args, hread, hlength, hargs⟩ :=
      (passesArguments hregisters amd64SysV "f" hpos).reads rfl
    have harg := List.getElem?_eq_getElem (l := args) (i := 1) (hlength ▸ by decide)
    obtain ⟨r, hr, hvalue⟩ := (hargs m hm 1 _ _ 12 rfl harg rfl).register _ rfl
    cases hr
    have hword : inRegisters.registerWord m .rsi = 0xfffff123 := by decide +kernel
    exact ⟨args, _, hread, harg, hvalue.congr rfl (by rw [hword]; rfl)⟩
  · obtain ⟨args, hread, hlength, hargs⟩ :=
      (passesArguments hstack x86Cdecl "f" hpos).reads rfl
    have htop : onStack.StackAt 0x8000 := by
      unfold PathState.StackAt
      decide +kernel
    have harg := List.getElem?_eq_getElem (l := args) (i := 1) (hlength ▸ by decide)
    have hvalue := (hargs m hm 1 _ _ 12 rfl harg rfl).stack rfl 0x8000 htop
    have hword : onStack.stackWord m ((0x8000 + 4 + 4 * 1) % 2 ^ 32) = 0xfffff123 := by
      decide +kernel
    exact ⟨args, _, hread, harg, hvalue.congr rfl (by rw [hword]; rfl)⟩

end Convention

end SymLift
