import SymLift.Proofs.Addresses
import SymLift.Proofs.FlatMemory

/-!
# Loads at addresses that were found

An address that was found stays found, at the same place, whatever else is
known, and a load through it is the load at that place.

* `exists_loadConcrete`: bytes of eight bits can be joined, well formed or
  not.
* `resolveAddress?_append`: what is known later does not move an address.
* `resolvedAt` puts these together with the value of the address under a
  model.
-/

namespace SymLift

/-- A model assigns the variables of a term. -/
def Model.Assigns (m : Model) (t : Term) : Prop :=
  ∀ p ∈ t.occurrences, ∃ value, m p.1 = some value

namespace ByteStore

open Term

variable {s : ByteStore} {m : Model} {addr : Term} {prior : List Term} {a v w : Nat}

/-! ## Joining bytes -/

/-- A byte of eight bits goes beside what was joined before it. -/
theorem exists_appendByte (order : ByteOrder) {lower byte : Term} (hlower : lower.width = v)
    (hbyte : byte.width = 8) (le : v + 8 ≤ Word.maxBits) :
    ∃ t, appendByte order lower byte = .ok t ∧ t.width = v + 8 := by
  cases order with
  | big => exact ⟨_, Build.concat_ok (by omega), by rw [Fold.width_concat, hlower, hbyte]⟩
  | little =>
    exact ⟨_, Build.concat_ok (by omega), by rw [Fold.width_concat, hlower, hbyte, Nat.add_comm]⟩

theorem exists_appendBytes (order : ByteOrder) {lower : Term} {bytes : List Term}
    (hlower : lower.width = v) (hbytes : ∀ t ∈ bytes, t.width = 8)
    (le : v + 8 * bytes.length ≤ Word.maxBits) :
    ∃ t, bytes.foldlM (appendByte order) lower = .ok t ∧ t.width = v + 8 * bytes.length := by
  induction bytes generalizing lower v with
  | nil => exact ⟨lower, rfl, hlower⟩
  | cons byte bytes ih =>
    obtain ⟨hbyte, hbytes⟩ := List.forall_mem_cons.1 hbytes
    rw [List.length_cons] at le ⊢
    obtain ⟨next, hnext, hwidth⟩ := exists_appendByte order hlower hbyte (by omega)
    obtain ⟨t, hrest, ht⟩ := ih hwidth hbytes (by omega)
    refine ⟨t, ?_, by omega⟩
    rw [List.foldlM_cons, hnext, ok_bind, hrest]

/-- A load needs the widths of the cells only. -/
theorem exists_loadConcrete (hs : ∀ place, (s.byteAt place).width = 8) (place : Nat) (pos : 0 < w)
    (le : w ≤ Word.maxBits) : ∃ t, s.loadConcrete place w = .ok t ∧ t.width = w := by
  have hbits := bytesFor_le le
  obtain ⟨rest, hcount⟩ : ∃ rest, bytesFor w = rest + 1 :=
    Nat.exists_eq_add_one.2 (bytesFor_pos pos)
  have hbytes : ∀ t ∈ (List.range' 1 rest).map fun i => s.byteAt (addressAt place i),
      t.width = 8 := by
    rw [List.forall_mem_map]
    exact fun i _ => hs _
  obtain ⟨t, hjoined, -⟩ := exists_appendBytes s.order (hs (addressAt place 0)) hbytes (by
    rw [List.length_map, List.length_range']
    omega)
  have hjoin : s.joinBytes place (bytesFor w) = .ok t := by
    rw [joinBytes, hcount, List.range_eq_range', List.range'_succ, List.map_cons]
    exact hjoined
  refine ⟨Fold.resize w t, ?_, Fold.width_resize pos⟩
  rw [loadConcrete, if_neg (Nat.not_lt.2 le), hjoin, ok_bind, Build.resize_ok pos le]
  rfl

/-! ## Addresses that were found -/

/-- What is known later does not move an address. -/
theorem resolveAddress?_append (h : resolveAddress? addr prior = some a) (more : List Term) :
    resolveAddress? addr (prior ++ more) = some a := by
  unfold resolveAddress? at h ⊢
  split
  · rename_i value hvalue
    rw [hvalue] at h
    exact h
  · rename_i hvalue
    rw [hvalue] at h
    dsimp only at h
    rw [List.findSome?_append, h, Option.some_or]

/-- A term has the address that was found for it, at its own width. -/
theorem eval_of_resolveAddress? (haddr : addr.HasSort (.bitVec v))
    (h : resolveAddress? addr prior = some a) (hm : m.Assigns addr)
    (hprior : ∀ t ∈ prior, t.Decides m true) : addr.eval m = .ok (.word a v) := by
  obtain ⟨x, hx⟩ : ∃ x : BitVec v, addr.Denotes m x := haddr.hasValue hm
  rw [hx.eval_eq, hx.hasNumber.unique (hasNumber_of_resolveAddress? hprior h)]

/-- What it means that a term was found at an address. -/
structure ResolvedAt (s : ByteStore) (addr : Term) (v : Nat) (prior : List Term) (a : Nat) :
    Prop where
  /-- The term has this value wherever the constraints are true. -/
  sound : ∀ m : Model, m.Assigns addr → (∀ t ∈ prior, t.Decides m true) →
    addr.eval m = .ok (.word a v)
  /-- A load through it succeeds and is the load at the constant, whatever its
  width and whatever is known.  It has a value if the cells are well formed. -/
  load : ∀ w, 1 ≤ w → w ≤ 128 → ∃ t, s.load addr w prior = .ok t ∧ t.width = w ∧
    (∀ u known, s.load (.const a u) w known = .ok t) ∧
    (s.CellsWellFormed → ∀ m : Model, m.Assigns t → ∃ x : BitVec w, t.Denotes m x)
  /-- Whatever else is known, the term is found at the same address, and loads
  through it stay what they are. -/
  stable : ∀ more, resolveAddress? addr (prior ++ more) = some a ∧
    ∀ w, s.load addr w (prior ++ more) = s.load addr w prior

/-- A store of cells of eight bits, and a well-formed term that was found at
an address. -/
theorem resolvedAt (haddr : addr.HasSort (.bitVec v)) (hs : ∀ place, (s.byteAt place).width = 8)
    (h : resolveAddress? addr prior = some a) : ResolvedAt s addr v prior a where
  sound := fun _ hm hprior => eval_of_resolveAddress? haddr h hm hprior
  load := by
    intro w pos le
    obtain ⟨t, hload, hwidth⟩ := exists_loadConcrete hs a pos le
    have hthrough := (load_of_resolveAddress? s h le).trans hload
    refine ⟨t, hthrough, hwidth, fun u known => ?_, fun hcells m hm => ?_⟩
    · have hconst := resolveAddress?_const (lt_of_resolveAddress? h) u known
      exact (load_of_resolveAddress? s hconst le).trans hload
    · obtain ⟨t', ht', hsort⟩ := hasSort_load hcells addr prior pos le
      obtain rfl := Except.ok.inj (hthrough.symm.trans ht')
      exact hsort.hasValue hm
  stable := by
    intro more
    have hmore := resolveAddress?_append h more
    refine ⟨hmore, fun w => ?_⟩
    rw [load, load, h, hmore]

/-- A pointer that is equated with a constant, after a comparison that says
nothing of its place. -/
theorem resolvedAt_second :
    let p : Term := .var "p" 64
    let prior : List Term := [.compare .ule p (.const 0x2000 64), .compare .eq (.const 0x1000 64) p]
    let m : Model := fun _ => some 0x1000
    let s := (empty "mem" .big).storeBytes 0x1000 [0xef, 0xbe]
    ResolvedAt s p 64 prior 0x1000 ∧ p.eval m = .ok (.word 0x1000 64) ∧
      ∃ t, s.load p 16 prior = .ok t ∧ s.load (.const 0x1000 64) 16 [] = .ok t := by
  intro p prior m s
  have hcells : s.CellsWellFormed := (cellsWellFormed_access (cellsWellFormed_empty "mem" .big)
    (a := .storeBytes 0x1000 [0xef, 0xbe]) trivial).1
  have hresolved : ResolvedAt s p 64 prior 0x1000 :=
    resolvedAt (.var "p" (by decide) (by decide)) (fun place => (hcells place).width_eq)
      (by decide +kernel)
  have hprior : ∀ t ∈ prior, t.Decides m true := by
    intro t ht
    simp only [prior, List.mem_cons, List.not_mem_nil, or_false] at ht
    rcases ht with rfl | rfl <;> rfl
  obtain ⟨t, hload, -, hconst, -⟩ := hresolved.load 16 (by decide) (by decide)
  exact ⟨hresolved, hresolved.sound m (fun _ _ => ⟨_, rfl⟩) hprior, t, hload, hconst 64 []⟩

end ByteStore

end SymLift
