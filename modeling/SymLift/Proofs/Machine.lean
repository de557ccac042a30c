import SymLift.Lift
import SymLift.Proofs.Addresses
import SymLift.Proofs.FlatMemory
import SymLift.Proofs.Helpers

/-!
# Running lifted code on a machine

A `Machine` holds bytes and numbers where a path state holds terms, and
`Machine.run` computes the value of a tree on it.  No term occurs in either.

* `Machine.fetch` assembles a value from the bytes at an address.
* `PathState.machine` is the machine that a path state is under a model.
* `PathState.WellFormed` says that a path state holds well-formed
  bit-vectors, in the byte orders that lifting relies on.
* `exists_evaluates_temp`, `evaluates_liftGet` and `evaluates_liftLoad` read the
  values of the machine off the state.
-/

namespace SymLift

open IR (Expr Op Ty)

/-- A machine that lifted code runs on. -/
structure Machine where
  guest : Guest
  registers : FlatMemory
  memory : FlatMemory
  /-- The values of the temporaries that were bound. -/
  temps : Nat → Option Bits

namespace Machine

/-- The value that the bytes at an address hold. -/
def fetch (bytes : FlatMemory) (order : ByteOrder) (addr : BitVec 64) (ty : Ty) : Bits :=
  ⟨ty.width, BitVec.ofNat _ (order.number (bytes.read addr (bytesFor ty.width)))⟩

mutual
/-- The value of a tree.  A choice evaluates the arm that it takes, and only
that one. -/
def run (s : Machine) : Expr → Option Bits
  | .binder _ | .getI .. => none
  | .get offset ty =>
    some (fetch s.registers s.guest.order
      (BitVec.ofNat 64 (offset.toNat % 2 ^ s.guest.wordBits)) ty)
  | .rdTmp tmp => s.temps tmp.toNat
  | .const literal => some ⟨literal.ty.width, BitVec.ofNat _ literal.bits⟩
  | .unop op arg => do
    op.compute [← run s arg]
  | .binop op arg1 arg2 => do
    op.compute [← run s arg1, ← run s arg2]
  | .triop op arg1 arg2 arg3 => do
    op.compute [← run s arg1, ← run s arg2, ← run s arg3]
  | .qop op arg1 arg2 arg3 arg4 => do
    op.compute [← run s arg1, ← run s arg2, ← run s arg3, ← run s arg4]
  | .load order ty addr => do
    let place ← run s addr
    some (fetch s.memory order (place.value.setWidth 64) ty)
  | .ccall callee retTy args => do
    let helper ← Helper.ofName? callee
    let answer ← helper.compute (← runAll s args)
    some ⟨retTy.width, answer.setWidth _⟩
  | .mux0X cond expr0 exprX => do
    let c ← run s cond
    if c.value.toNat = 0 then run s expr0 else run s exprX

/-- The values of trees, from left to right. -/
def runAll (s : Machine) : List Expr → Option (List Bits)
  | [] => some []
  | e :: es => do
    let first ← run s e
    some (first :: (← runAll s es))
end

variable {s : Machine}

/-- The operands of an operator are evaluated first. -/
theorem run_op {e : Expr} {op : Op} {args : List Expr} (he : e.operands? = some (op, args)) :
    s.run e = (s.runAll args).bind op.compute := by
  cases e with
  | unop | binop | triop | qop =>
    cases he
    simp only [run, runAll, Option.bind_eq_bind, Option.bind_assoc, Option.bind_some]
  | _ => cases he

end Machine

namespace PathState

/-- A path state holds well-formed bit-vectors, and its bytes are in order. -/
structure WellFormed (s : PathState) : Prop where
  registers : s.registers.CellsWellFormed
  memory : s.memory.CellsWellFormed
  registerOrder : s.registers.order = s.guest.order
  memoryOrder : s.memory.order = .big
  temps : ∀ tmp t, s.temp? tmp = some t → ∃ w, t.HasSort (.bitVec w)

/-- The machine that a path state is under a model. -/
def machine (s : PathState) (m : Model) : Machine where
  guest := s.guest
  registers := s.registers.flat m
  memory := s.memory.flat m
  temps tmp := do
    match (← s.temp? tmp).eval m with
    | .ok (.word value width) => some ⟨width, BitVec.ofNat width value⟩
    | _ => none

variable {s : PathState} {m : Model}

theorem wellFormed_start (g : Guest) : (start g).WellFormed where
  registers := ByteStore.cellsWellFormed_empty _ _
  memory := ByteStore.cellsWellFormed_empty _ _
  registerOrder := rfl
  memoryOrder := rfl
  temps := by
    intro tmp t h
    cases h

theorem WellFormed.bindTemp (hs : s.WellFormed) {value : Term} {w : Nat}
    (hvalue : value.HasSort (.bitVec w)) (tmp : Nat) : (s.bindTemp tmp value).WellFormed where
  registers := hs.registers
  memory := hs.memory
  registerOrder := hs.registerOrder
  memoryOrder := hs.memoryOrder
  temps := by
    intro other t h
    rw [temp?_bindTemp] at h
    split at h
    · exact ⟨w, Option.some.inj h ▸ hvalue⟩
    · exact hs.temps other t h

theorem WellFormed.addConstraints (hs : s.WellFormed) (more : List Term) :
    (s.addConstraints more).WellFormed :=
  { hs with }

theorem addConstraints_nil (s : PathState) : s.addConstraints [] = s := by
  rw [addConstraints, List.filter_nil, List.append_nil]

/-- A constraint that is left out is constantly true. -/
theorem forall_addConstraints_iff {more : List Term} :
    (∀ c ∈ (s.addConstraints more).constraints, c.Decides m true) ↔
      (∀ c ∈ s.constraints, c.Decides m true) ∧ ∀ c ∈ more, c.Decides m true := by
  rw [addConstraints, List.forall_mem_append]
  refine and_congr_right fun _ => ⟨fun h c hc => ?_, fun h c hc => h c (List.mem_of_mem_filter hc)⟩
  by_cases htrue : c = .bool true
  · exact htrue ▸ Term.decides_bool true
  · exact h c (List.mem_filter.2 ⟨hc, decide_eq_true htrue⟩)

/-! ## Reading the state -/

/-- A temporary has a value, which the machine holds. -/
theorem exists_evaluates_temp (hs : s.WellFormed) (hm : m.Total) {tmp : Nat} {t : Term}
    (h : s.temp? tmp = some t) : ∃ c, (s.machine m).temps tmp = some c ∧ t.Evaluates m c := by
  obtain ⟨w, hsort⟩ := hs.temps tmp t h
  obtain ⟨x, hx⟩ := hsort.exists_denotes hm
  refine ⟨⟨w, x⟩, ?_, hsort.width_pos, hx⟩
  simp only [machine, h, Option.bind_eq_bind, Option.bind_some, hx.eval_eq, BitVec.ofNat_toNat,
    BitVec.setWidth_eq]

theorem evaluates_const (literal : IR.Const) :
    literal.term.Evaluates m ⟨literal.ty.width, BitVec.ofNat _ literal.bits⟩ :=
  ⟨literal.ty.width_pos, Fold.denotes_lit _ literal.ty.width_le⟩

/-- A load from a store at a known place assembles the bytes there. -/
theorem evaluates_load {bytes : ByteStore} (hbytes : bytes.CellsWellFormed) (hm : m.Total)
    {place t : Term} {addr : Nat} {known : List Term} {ty : Ty}
    (hplace : ByteStore.resolveAddress? place known = some addr)
    (h : bytes.load place ty.width known = .ok t) :
    t.Evaluates m (Machine.fetch (bytes.flat m) bytes.order (BitVec.ofNat 64 addr) ty) := by
  have hlt := ByteStore.lt_of_resolveAddress? hplace
  obtain ⟨raw, hraw, hvalue⟩ :=
    ByteStore.denotes_loadConcrete hbytes hm (BitVec.ofNat 64 addr) ty.width_pos ty.width_le
  rw [BitVec.toNat_ofNat, Nat.mod_eq_of_lt hlt] at hraw
  rw [ByteStore.load_of_resolveAddress? _ hplace ty.width_le] at h
  obtain rfl := Except.ok.inj (hraw.symm.trans h)
  exact ⟨ty.width_pos, hvalue⟩

theorem needs_liftGet {offset : UInt64} {ty : Ty} {v : Lifted} (h : s.liftGet offset ty = .ok v) :
    v.needs = [] := by
  obtain ⟨t, -, h⟩ := bind_eq_ok_iff.1 h
  cases h
  rfl

theorem needs_liftLoad {order : ByteOrder} {ty : Ty} {a v : Lifted}
    (h : s.liftLoad order ty a = .ok v) : v.needs = a.needs := by
  obtain ⟨raw, -, h⟩ := bind_eq_ok_iff.1 h
  obtain ⟨t, -, h⟩ := fault_bind_eq_ok_iff.1 h
  cases h
  rfl

/-- A register is read at its offset, cut to a word. -/
theorem evaluates_liftGet (hs : s.WellFormed) (hm : m.Total) {offset : UInt64} {ty : Ty}
    {v : Lifted} (h : s.liftGet offset ty = .ok v) : v.value.Evaluates m
      (Machine.fetch (s.registers.flat m) s.guest.order
        (BitVec.ofNat 64 (offset.toNat % 2 ^ s.guest.wordBits)) ty) := by
  obtain ⟨t, hload, h⟩ := bind_eq_ok_iff.1 h
  cases h
  have hlt : offset.toNat % 2 ^ s.guest.wordBits < 2 ^ 64 :=
    (Nat.mod_le _ _).trans_lt offset.toNat_lt
  have hconst : (s.word offset.toNat).constValue? =
      some (offset.toNat % 2 ^ s.guest.wordBits) := by
    rw [word, Guest.word, Fold.lit, Term.constValue?, Word.truncate_eq s.guest.wordBits_le,
      BitVec.toNat_ofNat]
  have hplace : ByteStore.resolveAddress? (s.word offset.toNat) [] =
      some (offset.toNat % 2 ^ s.guest.wordBits) := by
    rw [ByteStore.resolveAddress?, Term.addressValue?_eq_some_iff.2 ⟨hconst, hlt⟩]
  have hvalue := evaluates_load hs.registers hm hplace hload
  rwa [hs.registerOrder] at hvalue

/-- Memory is kept from the highest byte down, and an access applies its
own order. -/
theorem denotes_fixOrder {order : ByteOrder} {bytes : List (BitVec 8)} {ty : Ty} {raw t : Term}
    (hlength : bytes.length = bytesFor ty.width)
    (hraw : raw.Denotes m (BitVec.ofNat ty.width (ByteOrder.big.number bytes)))
    (h : Build.fixOrder order raw = .ok t) :
    t.Denotes m (BitVec.ofNat ty.width (order.number bytes)) := by
  cases order with
  | big =>
    cases h
    exact hraw
  | little =>
    rw [Build.fixOrder, Build.reverseBytes_ok (hraw.width_eq ▸ hraw.width_le)] at h
    cases h
    have hwidth : ty.width = 8 * bytesFor ty.width ∨ ty.width = 1 := by
      cases ty <;> decide
    rcases hwidth with hwhole | hbit
    · have hw : ty.width = 8 * bytes.length := by
        rw [hlength]
        exact hwhole
      have hjoined : raw.Denotes m (ByteOrder.big.joined bytes) :=
        hraw.congr hw (congrArg (fun w => (BitVec.ofNat w _).toNat) hw)
      exact (Fold.denotes_reverseBytes hjoined).congr hw.symm
        (congrArg (fun w => (BitVec.ofNat w _).toNat) hw.symm)
    · have hshort : raw.width ≤ 8 := by
        rw [hraw.width_eq]
        omega
      have hreverse : bytes.reverse = bytes :=
        Fold.reverse_eq_of_length_le_one (by rw [hlength, hbit]; decide)
      rw [Fold.reverseBytes, if_pos (Or.inl hshort)]
      rwa [ByteOrder.number_big, hreverse] at hraw

/-- The memory at a place that is known. -/
theorem evaluates_liftLoad (hs : s.WellFormed) (hm : m.Total) {order : ByteOrder} {ty : Ty}
    {a v : Lifted} {addr : Nat}
    (hplace : ByteStore.resolveAddress? a.value (s.constraints ++ a.needs) = some addr)
    (h : s.liftLoad order ty a = .ok v) :
    v.value.Evaluates m (Machine.fetch (s.memory.flat m) order (BitVec.ofNat 64 addr) ty) := by
  obtain ⟨raw, hload, h⟩ := bind_eq_ok_iff.1 h
  obtain ⟨t, hfix, h⟩ := fault_bind_eq_ok_iff.1 h
  cases h
  have hraw := evaluates_load hs.memory hm hplace hload
  rw [hs.memoryOrder] at hraw
  exact ⟨ty.width_pos, denotes_fixOrder (FlatMemory.length_read ..) hraw.2 hfix⟩

/-- The memory at a place that is not known has some value. -/
theorem exists_evaluates_unresolved (hm : m.Total) {order : ByteOrder} {ty : Ty} {a v : Lifted}
    (hplace : ByteStore.resolveAddress? a.value (s.constraints ++ a.needs) = none)
    (h : s.liftLoad order ty a = .ok v) : ∃ c, v.value.Evaluates m c := by
  obtain ⟨raw, hload, h⟩ := bind_eq_ok_iff.1 h
  obtain ⟨t, hfix, h⟩ := fault_bind_eq_ok_iff.1 h
  cases h
  rw [ByteStore.load, if_neg (Nat.not_lt.2 ty.width_le), hplace] at hload
  dsimp only at hload
  rw [Build.var_ok ty.width_pos ty.width_le] at hload
  cases hload
  obtain ⟨value, hvalue⟩ := hm (s.memory.unresolvedName a.value ty.width)
  have hvar := Term.Denotes.var ty.width_le hvalue
  have hbytes := ByteOrder.number_bytesOf .big (BitVec.ofNat ty.width value)
  have hlength := ByteOrder.length_bytesOf .big (BitVec.ofNat ty.width value)
  refine ⟨⟨ty.width, _⟩, ty.width_pos, denotes_fixOrder hlength ?_ hfix⟩
  rwa [hbytes, BitVec.ofNat_toNat, BitVec.setWidth_eq]

end PathState

end SymLift
