import SymLift.Proofs.Executions
import SymLift.Proofs.Typing

/-!
# The arguments of a routine

`Convention.check` looks at a signature only.  What it accepts can be read
from every state whose cells are well formed, with one exception: it bounds
the widths of the arguments from above, and lets an integer of no bits pass.
A slot cannot be cut down to that.

* `check_eq_ok_iff`: what the check accepts.
* `hasSort_slot`: every slot holds one word.
* `arguments_ok` and `arguments_empty`: the arguments have their declared
  widths, or one of them has no bits and the reading faults.
* `runOn_arguments` says what the check tells about the reading.
* `check_too_weak`: a signature that passes the check and cannot be read.
* `setReturn_eq`: a returned value can be written.
-/

namespace SymLift

/-- The cells of both stores are well formed. -/
structure PathState.CellsWellFormed (s : PathState) : Prop where
  registers : s.registers.CellsWellFormed
  memory : s.memory.CellsWellFormed

theorem PathState.HoldsBitVectors.cells {s : PathState} (hs : s.HoldsBitVectors) :
    s.CellsWellFormed :=
  ⟨hs.registers, hs.memory⟩

theorem PathState.cellsWellFormed_start (guest : Guest) :
    (PathState.start guest).CellsWellFormed :=
  (wellFormed_start guest).holdsBitVectors.cells

namespace Convention

variable {cc : Convention} {s : PathState} {ty : CType} {tys : List CType} {sig : Signature}
  {name : String} {args : List Term}

theorem wordBits_bounds (cc : Convention) : 0 < cc.wordBits ∧ cc.wordBits ≤ Word.maxBits := by
  cases cc <;> decide

/-! ## What the check accepts -/

/-- The width of a type, where it fits a slot. -/
theorem checkArg_eq_ok_iff (index : Nat) :
    cc.checkArg index ty = .ok () ↔ ∃ w, ty.width? cc.wordBits = some w ∧ w ≤ cc.wordBits := by
  unfold checkArg
  cases ty.width? cc.wordBits with
  | none => simp
  | some w =>
    dsimp only
    split
    · rename_i hwide
      simp [hwide]
    · rename_i hfits
      simpa using hfits

theorem checkArgs_eq_ok_iff (index : Nat) :
    cc.checkArgs index tys = .ok () ↔
      ∀ ty ∈ tys, ∃ w, ty.width? cc.wordBits = some w ∧ w ≤ cc.wordBits := by
  induction tys generalizing index with
  | nil => exact iff_of_true rfl (List.forall_mem_nil _)
  | cons ty tys ih =>
    rw [checkArgs, bind_eq_ok_iff, List.forall_mem_cons, ← checkArg_eq_ok_iff index,
      ← ih (index + 1)]
    exact ⟨fun ⟨_, hfirst, hrest⟩ => ⟨hfirst, hrest⟩, fun ⟨hfirst, hrest⟩ => ⟨(), hfirst, hrest⟩⟩

/-- The check accepts a signature if its arguments have places to come from,
and each fits its place. -/
theorem check_eq_ok_iff :
    cc.check name sig = .ok () ↔
      ¬(cc.stackPointer?.isNone ∧ cc.argRegisters.length < sig.args.length) ∧
        ∀ ty ∈ sig.args, ∃ w, ty.width? cc.wordBits = some w ∧ w ≤ cc.wordBits := by
  have hchecked : cc.check name sig = .ok () ↔ cc.checkSignature sig = .ok () := by
    unfold check
    cases cc.checkSignature sig with
    | error mismatch => exact ⟨nofun, nofun⟩
    | ok => exact iff_of_true rfl rfl
  rw [hchecked, checkSignature]
  split
  · rename_i hmany
    exact iff_of_false nofun fun h => h.1 hmany
  · rename_i hfew
    rw [checkArgs_eq_ok_iff, and_iff_right hfew]

/-- Only an integer can have no bits. -/
theorem width?_eq_zero_iff :
    ty.width? cc.wordBits = some 0 ↔ ∃ signed, ty = .int 0 signed := by
  have hword := cc.wordBits_bounds.1.ne'
  cases ty with
  | int width signed => simp [CType.width?, ← UInt32.toNat_inj]
  | _ => simp [CType.width?, hword]

/-! ## Slots -/

/-- A slot holds one word. -/
theorem hasSort_slot (cc : Convention) (hs : s.CellsWellFormed) (index : Nat) :
    ∃ t, cc.slot s index = .ok t ∧ t.HasSort (.bitVec cc.wordBits) := by
  obtain ⟨pos, le⟩ := cc.wordBits_bounds
  unfold slot
  split
  · exact ByteStore.hasSort_load hs.registers _ _ pos le
  · obtain ⟨top, htop, htopSort⟩ :=
      ByteStore.hasSort_load hs.registers (cc.word (cc.stackPointer?.getD 0)) [] pos le
    have hoffset (value : Nat) : (cc.word value).width = cc.wordBits := rfl
    unfold stackSlot
    rw [htop, ok_bind, Build.binary_ok (htopSort.width_eq.trans (hoffset _).symm), fault_ok_bind]
    obtain ⟨raw, hraw, hrawSort⟩ := ByteStore.hasSort_load hs.memory (Fold.binary .add top
      (cc.word (cc.wordBits / 8 * (index - cc.argRegisters.length + 1)))) s.constraints pos le
    obtain ⟨t, hfix, hsort⟩ := Fold.hasSort_fixOrder s.guest.order hrawSort
    rw [hraw, ok_bind, hfix]
    exact ⟨t, rfl, hsort⟩

/-! ## Reading the arguments -/

/-- A term has the declared width of an argument. -/
def AtWidth (cc : Convention) (ty : CType) (t : Term) : Prop :=
  ∃ w, ty.width? cc.wordBits = some w ∧ t.HasSort (.bitVec w)

/-- Arguments that have bits have their declared widths. -/
theorem argumentsFrom_ok (hs : s.CellsWellFormed)
    (htys : ∀ ty ∈ tys, ∃ w, ty.width? cc.wordBits = some w ∧ 0 < w ∧ w ≤ cc.wordBits)
    (index : Nat) :
    ∃ args, cc.argumentsFrom s index tys = .ok args ∧
      List.Forall₂ cc.AtWidth tys args := by
  induction tys generalizing index with
  | nil => exact ⟨[], rfl, .nil⟩
  | cons ty tys ih =>
    obtain ⟨⟨w, hw, pos, le⟩, htys⟩ := List.forall_mem_cons.1 htys
    have hfits := le.trans cc.wordBits_bounds.2
    obtain ⟨word, hslot, hword⟩ := cc.hasSort_slot hs index
    obtain ⟨rest, hrest, hsorts⟩ := ih htys (index + 1)
    have harg : cc.AtWidth ty (Fold.resize w word) :=
      ⟨w, hw, Fold.hasSort_resize hword pos hfits⟩
    refine ⟨Fold.resize w word :: rest, ?_, .cons harg hsorts⟩
    rw [argumentsFrom, hslot, ok_bind, hw, Option.getD_some, Build.resize_ok pos hfits,
      fault_ok_bind, hrest, ok_bind]

/-- An argument of no bits cannot be cut out of its slot. -/
theorem argumentsFrom_empty (hs : s.CellsWellFormed)
    (htys : ∀ ty ∈ tys, ∃ w, ty.width? cc.wordBits = some w ∧ w ≤ cc.wordBits)
    (hempty : ∃ ty ∈ tys, ty.width? cc.wordBits = some 0) (index : Nat) :
    cc.argumentsFrom s index tys = .error (.fault .widthUnderflow) := by
  induction tys generalizing index with
  | nil =>
    obtain ⟨_, hmem, -⟩ := hempty
    cases hmem
  | cons ty tys ih =>
    obtain ⟨⟨w, hw, le⟩, htys⟩ := List.forall_mem_cons.1 htys
    obtain ⟨word, hslot, hword⟩ := cc.hasSort_slot hs index
    rw [argumentsFrom, hslot, ok_bind, hw, Option.getD_some]
    rcases Nat.eq_zero_or_pos w with rfl | pos
    · have hcut : Build.resize 0 word = .error .widthUnderflow := by
        rw [Build.resize, if_neg (by rw [hword.width_eq]; exact hword.width_pos.ne'),
          if_neg (Nat.not_lt_zero _), if_pos rfl]
      rw [hcut]
      rfl
    · -- This argument can be read, so another one has no bits.
      have hothers : ∃ ty ∈ tys, ty.width? cc.wordBits = some 0 := by
        obtain ⟨other, hmem, hzero⟩ := hempty
        rcases List.mem_cons.1 hmem with rfl | hmem
        · exact absurd (Option.some.inj (hw.symm.trans hzero)) pos.ne'
        · exact ⟨other, hmem, hzero⟩
      rw [Build.resize_ok pos (le.trans cc.wordBits_bounds.2), fault_ok_bind, ih htys hothers]
      rfl

theorem arguments_ok (hs : s.CellsWellFormed) (hcheck : cc.check name sig = .ok ())
    (hnone : ¬∃ signed, .int 0 signed ∈ sig.args) :
    ∃ args, cc.arguments name sig s = .ok args ∧ List.Forall₂ cc.AtWidth sig.args args := by
  have hpos : ∀ ty ∈ sig.args, ∃ w, ty.width? cc.wordBits = some w ∧ 0 < w ∧ w ≤ cc.wordBits := by
    intro ty hty
    obtain ⟨w, hw, le⟩ := (check_eq_ok_iff.1 hcheck).2 ty hty
    refine ⟨w, hw, Nat.pos_of_ne_zero ?_, le⟩
    rintro rfl
    obtain ⟨signed, rfl⟩ := width?_eq_zero_iff.1 hw
    exact hnone ⟨signed, hty⟩
  obtain ⟨args, hread, hsorts⟩ := argumentsFrom_ok hs hpos 0
  exact ⟨args, by rw [arguments, hcheck, ok_bind, hread], hsorts⟩

theorem arguments_empty (hs : s.CellsWellFormed) (hcheck : cc.check name sig = .ok ())
    (hsome : ∃ signed, .int 0 signed ∈ sig.args) :
    cc.arguments name sig s = .error (.fault .widthUnderflow) := by
  obtain ⟨signed, hmem⟩ := hsome
  have hempty : ∃ ty ∈ sig.args, ty.width? cc.wordBits = some 0 :=
    ⟨_, hmem, width?_eq_zero_iff.2 ⟨signed, rfl⟩⟩
  rw [arguments, hcheck, ok_bind, argumentsFrom_empty hs (check_eq_ok_iff.1 hcheck).2 hempty 0]

/-- The arguments of a routine have the widths that its signature declares. -/
theorem hasSort_arguments (hs : s.HoldsBitVectors) (h : cc.arguments name sig s = .ok args) :
    List.Forall₂ cc.AtWidth sig.args args := by
  obtain ⟨_, hcheck, -⟩ := bind_eq_ok_iff.1 h
  by_cases hsome : ∃ signed, .int 0 signed ∈ sig.args
  · cases (arguments_empty hs.cells hcheck hsome).symm.trans h
  · obtain ⟨_, hread, hsorts⟩ := arguments_ok hs.cells hcheck hsome
    cases hread.symm.trans h
    exact hsorts

/-- No argument is wider than a word. -/
theorem exists_width_of_mem_arguments (hs : s.HoldsBitVectors)
    (h : cc.arguments name sig s = .ok args) :
    ∀ t ∈ args, ∃ w ≤ cc.wordBits, t.HasSort (.bitVec w) := by
  intro t ht
  obtain ⟨_, hcheck, -⟩ := bind_eq_ok_iff.1 h
  obtain ⟨hlength, hsorts⟩ := List.forall₂_iff_zip.1 (hasSort_arguments hs h)
  obtain ⟨ty, hmem⟩ := PathState.exists_zip_of_mem_right hlength ht
  obtain ⟨w, hw, hsort⟩ := hsorts hmem
  obtain ⟨w', hw', le⟩ := (check_eq_ok_iff.1 hcheck).2 ty (List.of_mem_zip hmem).1
  cases hw.symm.trans hw'
  exact ⟨w, le, hsort⟩

/-- What the check says of reading the arguments, which never changes the
state.  If the check fails, the reading fails with the same error.  If it
succeeds, every argument is read at its declared width, unless the signature
declares an integer of no bits.  Then a width goes below zero. -/
theorem runOn_arguments (hs : s.CellsWellFormed) (cc : Convention) (name : String)
    (sig : Signature) :
    (∀ cause, cc.check name sig = .error cause →
      (Summary.read (cc.arguments name sig)).runOn s = (.error cause, s)) ∧
    (cc.check name sig = .ok () →
      ((¬∃ signed, .int 0 signed ∈ sig.args) →
        ∃ args, (Summary.read (cc.arguments name sig)).runOn s = (.ok args, s) ∧
          List.Forall₂ cc.AtWidth sig.args args) ∧
      ((∃ signed, .int 0 signed ∈ sig.args) →
        (Summary.read (cc.arguments name sig)).runOn s =
          (.error (.fault .widthUnderflow), s))) := by
  rw [Execution.runOn_read]
  refine ⟨fun cause hcheck => ?_, fun hcheck => ⟨fun hnone => ?_, fun hsome => ?_⟩⟩
  · rw [arguments, hcheck]
    rfl
  · obtain ⟨args, hread, hsorts⟩ := arguments_ok hs hcheck hnone
    exact ⟨args, by rw [hread], hsorts⟩
  · rw [arguments_empty hs hcheck hsome]

/-- A routine of a string and an integer of one bit. -/
def flagSignature : Signature := { args := [.string, .int 1 false], ret := .void }

/-- A routine of an integer of no bits. -/
def emptySignature : Signature := { args := [.int 0 false], ret := .void }

theorem runOn_arguments_start :
    (∃ args, (Summary.read (amd64SysV.arguments "f" flagSignature)).runOn (.start .amd64) =
        (.ok args, .start .amd64) ∧ args.length = 2) ∧
      (Summary.read (x86Cdecl.arguments "f" emptySignature)).runOn (.start .x86) =
        (.error (.fault .widthUnderflow), .start .x86) := by
  have hnone : ¬∃ signed, CType.int 0 signed ∈ flagSignature.args := by
    rintro ⟨signed, hmem⟩
    cases signed <;> revert hmem <;> decide
  obtain ⟨args, hread, hsorts⟩ := ((runOn_arguments (PathState.cellsWellFormed_start .amd64)
    amd64SysV "f" flagSignature).2 rfl).1 hnone
  have hempty := ((runOn_arguments (PathState.cellsWellFormed_start .x86) x86Cdecl "f"
    emptySignature).2 rfl).2 ⟨false, List.mem_cons_self⟩
  exact ⟨⟨args, hread, hsorts.length_eq.symm⟩, hempty⟩

/-- A signature that passes the check can be read, at its declared widths. -/
def CheckSuffices (cc : Convention) (name : String) (sig : Signature) (s : PathState) : Prop :=
  cc.check name sig = .ok () →
    ∃ args, (Summary.read (cc.arguments name sig)).runOn s = (.ok args, s) ∧
      List.Forall₂ cc.AtWidth sig.args args

/-- The check lets an integer of no bits pass. -/
theorem check_too_weak :
    (PathState.start .amd64).CellsWellFormed ∧
      ¬CheckSuffices amd64SysV "f" emptySignature (.start .amd64) := by
  refine ⟨PathState.cellsWellFormed_start .amd64, fun hsuffices => ?_⟩
  have hcheck : amd64SysV.check "f" emptySignature = .ok () := by rfl
  obtain ⟨args, hread, -⟩ := hsuffices hcheck
  rw [Execution.runOn_read, arguments, hcheck, ok_bind] at hread
  cases (Prod.ext_iff.1 hread).1

/-! ## The returned value -/

theorem addressValue?_returnRegister (cc : Convention) :
    (cc.word cc.returnRegister).addressValue? = some cc.returnRegister := by
  cases cc <;> decide

/-- A returned value is resized and written, whatever its width. -/
theorem setReturn_eq (cc : Convention) (s : PathState) (value : Term) :
    cc.setReturn s value = .ok { s with
      registers := s.registers.setBytes cc.returnRegister
        (Fold.toBytes s.registers.order (Fold.resize cc.wordBits value)) } := by
  obtain ⟨pos, le⟩ := cc.wordBits_bounds
  have hfits : (Fold.resize cc.wordBits value).width ≤ Word.maxBits := by
    rwa [Fold.width_resize pos]
  rw [setReturn, Build.resize_ok pos le, fault_ok_bind,
    ByteStore.store_eq cc.addressValue?_returnRegister, ByteStore.storeConcrete,
    Build.toBytes_ok hfits]
  rfl

end Convention

end SymLift
