import SymLift.Proofs.FlatMemory
import SymLift.Proofs.StoreNames

/-!
# A byte store and a concrete memory

A concrete run starts from numbers for the variables and from an array of
bytes, writes to the array and reads from it.  `Represents` says that under a
model the terms that a store returns in the same run have the values that are
read.  The model keeps the numbers of the variables, and gives the variable of
a byte the number that the byte had at the start.

A load that cannot be placed is a variable, named for its address and width
only, so it has one value in all of a run.  `Stable` says that the concrete
run reads one value there, too.

* `flat_run`: under such a model the store holds the array of the concrete
  run.
* `exists_denotes_load_placed`: a load that can be placed reads that array.
* `load_run_unplaced`: one that cannot be placed has one name in all of a
  run, so `stable_of_represents`.
* `standIn` is a model for the runs that are stable.  It gives each name one
  number, since no name is that of two things.
* `exists_represents_iff_stable`: there is a model just for the runs that are
  stable.
-/

namespace SymLift

/-! ## Concrete runs -/

namespace FlatMemory

/-- The array after bytes were written at an address and above. -/
def write (memory : FlatMemory) (addr : BitVec 64) : List (BitVec 8) → FlatMemory
  | [] => memory
  | byte :: bytes => write (Function.update memory addr byte) (place addr 1) bytes

/-- The number that the bytes at an address and above hold. -/
def load (memory : FlatMemory) (order : ByteOrder) (addr : BitVec 64) (width : Nat) :
    BitVec width :=
  BitVec.ofNat width (order.number (memory.read addr (bytesFor width)))

end FlatMemory

/-- A model gives every name the number that another one gives it. -/
def Model.Extends (m a : Model) : Prop := ∀ name value, a name = some value → m name = some value

namespace Term

/-- The bits of a term under a model, and zeros where it has no value. -/
def bits (m : Model) (t : Term) : BitVec t.width :=
  match t.eval m with
  | .ok (.word value _) => BitVec.ofNat t.width value
  | _ => 0

/-- The address that a term is under a model. -/
def address (m : Model) (t : Term) : BitVec 64 := (t.bits m).setWidth 64

/-- A term is a bit-vector whose variables have numbers. -/
structure Assigned (a : Model) (t : Term) : Prop where
  hasSort : ∃ w, t.HasSort (.bitVec w)
  numbers : ∀ p ∈ t.occurrences, ∃ value, a p.1 = some value

variable {a m : Model} {t : Term} {w : Nat} {x : BitVec w}

theorem Denotes.toNat_bits (h : t.Denotes m x) : (t.bits m).toNat = x.toNat := by
  rw [bits, h.eval_eq]
  dsimp only
  rw [BitVec.toNat_ofNat, h.width_eq, Nat.mod_eq_of_lt x.isLt]

/-- A value stays what it is under a model with more numbers. -/
theorem Assigned.denotes (h : t.Assigned a) (hm : m.Extends a) : t.Denotes m (t.bits a) := by
  obtain ⟨w, hsort⟩ := h.hasSort
  obtain ⟨x, hx⟩ : ∃ x : BitVec w, t.Denotes a x := hsort.hasValue h.numbers
  have hcovers : a.Covers m t.occurrences := fun p _ value hvalue => ⟨value, hm _ _ hvalue, rfl⟩
  have hkept : t.Denotes m x := ⟨hx.sort_eq, hx.width_le, hsort.eval_transfer hcovers hx.eval_eq⟩
  exact hkept.congr hx.width_eq.symm hx.toNat_bits.symm

/-- A constant is the address that it is taken for. -/
theorem Assigned.address_eq (h : t.Assigned a) {place : Nat} (ht : t.addressValue? = some place) :
    t.address a = BitVec.ofNat 64 place := by
  have hself : a.Extends a := fun _ _ hvalue => hvalue
  rw [address, (h.denotes hself).constValue?_eq (addressValue?_eq_some_iff.1 ht).1,
    BitVec.ofNat_toNat]

end Term

namespace ByteStore

open FlatMemory Term

/-- What an access does to an array, where the model gives numbers to its
terms. -/
def Access.onFlat (a : Model) (order : ByteOrder) (memory : FlatMemory) : Access → FlatMemory
  | .storeBytes addr data => memory.write addr (data.map UInt8.toBitVec)
  | .storeConcrete addr value => memory.write addr (order.bytesOf (value.bits a))
  | .store addr value => memory.write (addr.address a) (order.bytesOf (value.bits a))
  | .loadConcrete .. | .load .. => memory

/-- The array after a run of accesses. -/
def runFlat (a : Model) (order : ByteOrder) (initial : FlatMemory) (accesses : List Access) :
    FlatMemory :=
  accesses.foldl (Access.onFlat a order) initial

/-- An access whose terms have numbers is a store at a constant address, or a
load of which nothing is known. -/
inductive Access.Placed (a : Model) : Access → Prop
  | storeBytes (addr : BitVec 64) (data : List UInt8) : Placed a (.storeBytes addr data)
  | storeConcrete (addr : BitVec 64) {value : Term} (hvalue : value.Assigned a) :
    Placed a (.storeConcrete addr value)
  | store {addr value : Term} {place : Nat} (haddr : addr.Assigned a)
    (hplace : addr.addressValue? = some place) (hvalue : value.Assigned a) :
    Placed a (.store addr value)
  | load {addr : Term} (haddr : addr.Assigned a) (width : Nat) : Placed a (.load addr width [])

theorem Access.Placed.wellFormed {a : Model} {x : Access} (h : x.Placed a) : x.WellFormed := by
  cases h with
  | storeBytes | load => trivial
  | storeConcrete _ hvalue => exact hvalue.hasSort
  | store _ _ hvalue => exact hvalue.hasSort

/-- A run makes a load after other accesses. -/
def LoadsAfter (accesses before : List Access) (addr : Term) (width : Nat) : Prop :=
  before ++ [.load addr width []] <+: accesses

variable {a m : Model} {name : String} {order : ByteOrder} {initial : FlatMemory}
  {accesses before before' : List Access} {addr : Term} {width : Nat} {s : ByteStore}

/-! ## The store holds the array of the run -/

theorem flat_setByte {byte : Term} {b : BitVec 8} (h : byte.Denotes m b) (addr : BitVec 64) :
    (s.setByte addr.toNat byte).flat m = Function.update (s.flat m) addr b := by
  funext other
  by_cases heq : other = addr
  · subst heq
    rw [Function.update_self]
    refine flat_eq ?_
    rwa [byteAt_setByte, if_pos rfl]
  · have hne : addr.toNat ≠ other.toNat := fun hnat => heq (BitVec.eq_of_toNat_eq hnat.symm)
    rw [Function.update_of_ne heq, flat, flat, byteAt_setByte, if_neg hne]

theorem flat_setBytes {terms : List Term} {bytes : List (BitVec 8)}
    (h : List.Forall₂ (fun t b => t.Denotes m b) terms bytes) (addr : BitVec 64) :
    (s.setBytes addr.toNat terms).flat m = (s.flat m).write addr bytes := by
  induction h generalizing s addr with
  | nil => rfl
  | cons hhead _ ih => rw [setBytes, addressAt_toNat, ih, flat_setByte hhead, FlatMemory.write]

theorem flat_storeConcrete {value : Term} (hvalue : value.Assigned a) (hm : m.Extends a)
    (addr : BitVec 64) : ∃ after, s.storeConcrete addr.toNat value = .ok after ∧
      after.flat m = (s.flat m).write addr (s.order.bytesOf (value.bits a)) := by
  obtain ⟨w, hsort⟩ := hvalue.hasSort
  exact ⟨_, storeConcrete_eq hsort _,
    flat_setBytes (Fold.denotes_toBytes s.order (hvalue.denotes hm)) addr⟩

/-- An access does to a store what it does to the array. -/
theorem flat_access {x : Access} (hx : x.Placed a) (hm : m.Extends a) :
    (s.access x).flat m = x.onFlat a s.order (s.flat m) := by
  cases hx with
  | storeBytes addr data => exact flat_setBytes (denotes_data m data) addr
  | storeConcrete addr hvalue =>
    obtain ⟨after, hafter, hflat⟩ := flat_storeConcrete hvalue hm addr
    rw [access, hafter]
    exact hflat
  | @store addr value place haddr hplace hvalue =>
    obtain ⟨after, hafter, hflat⟩ := flat_storeConcrete (s := s) hvalue hm (addr.address a)
    have hlt : place < 2 ^ 64 := (addressValue?_eq_some_iff.1 hplace).2
    rw [haddr.address_eq hplace, BitVec.toNat_ofNat, Nat.mod_eq_of_lt hlt] at hafter
    rw [access, store_eq hplace, hafter]
    exact hflat
  | load => rfl

theorem flat_run (hs : s.CellsWellFormed) (haccesses : ∀ x ∈ accesses, x.Placed a)
    (hm : m.Extends a) : (s.run accesses).flat m = runFlat a s.order (s.flat m) accesses := by
  induction accesses generalizing s with
  | nil => rfl
  | cons x accesses ih =>
    obtain ⟨hx, hrest⟩ := List.forall_mem_cons.1 haccesses
    obtain ⟨hnext, horder⟩ := cellsWellFormed_access hs hx.wellFormed
    have hrun := ih hnext hrest
    rwa [flat_access hx hm, horder] at hrun

theorem name_setBytes (s : ByteStore) (addr : Nat) (bytes : List Term) :
    (s.setBytes addr bytes).name = s.name := by
  induction bytes generalizing s addr with
  | nil => rfl
  | cons byte bytes ih => rw [setBytes, ih, setByte]

theorem name_access {x : Access} (hx : x.Placed a) : (s.access x).name = s.name := by
  cases hx with
  | storeBytes => exact name_setBytes ..
  | storeConcrete addr hvalue =>
    obtain ⟨w, hsort⟩ := hvalue.hasSort
    rw [access, storeConcrete_eq hsort]
    exact name_setBytes ..
  | store haddr hplace hvalue =>
    obtain ⟨w, hsort⟩ := hvalue.hasSort
    rw [access, store_eq hplace, storeConcrete_eq hsort]
    exact name_setBytes ..
  | load => rfl

theorem name_run (haccesses : ∀ x ∈ accesses, x.Placed a) : (s.run accesses).name = s.name := by
  induction accesses generalizing s with
  | nil => rfl
  | cons x accesses ih =>
    obtain ⟨hx, hrest⟩ := List.forall_mem_cons.1 haccesses
    exact (ih hrest).trans (name_access hx)

/-! ## Loads -/

/-- The number that a load reads in the concrete run, after other accesses. -/
def loaded (a : Model) (order : ByteOrder) (initial : FlatMemory) (before : List Access)
    (addr : Term) (width : Nat) : BitVec width :=
  (runFlat a order initial before).load order (addr.address a) width

/-- A model has the variables of a store start from a concrete memory. -/
structure StartsFrom (m a : Model) (name : String) (initial : FlatMemory) : Prop where
  numbers : m.Extends a
  bytes : ∀ addr : BitVec 64, m (name ++ "_" ++ hexDigits addr.toNat) = some (initial addr).toNat

theorem StartsFrom.flat_empty (h : StartsFrom m a name initial) :
    (empty name order).flat m = initial := by
  funext addr
  refine flat_eq ?_
  rw [byteAt_empty]
  refine (Denotes.var (by decide) (h.bytes addr)).congr rfl ?_
  rw [BitVec.ofNat_toNat, BitVec.setWidth_eq]

theorem load_placed {place : Nat} (hplace : addr.addressValue? = some place)
    (le : width ≤ Word.maxBits) : s.load addr width [] = s.loadConcrete place width := by
  rw [load, if_neg (Nat.not_lt.2 le), resolveAddress?, hplace]

theorem load_unplaced (hplace : addr.addressValue? = none) (pos : 0 < width)
    (le : width ≤ Word.maxBits) :
    s.load addr width [] = .ok (.var (s.unresolvedName addr width) width) := by
  rw [load, if_neg (Nat.not_lt.2 le), resolveAddress?, hplace, Build.var_ok pos le]
  rfl

/-- A load that cannot be placed has one name in all of a run. -/
theorem load_run_unplaced (hbefore : ∀ x ∈ before, x.Placed a)
    (hplace : addr.addressValue? = none) (pos : 0 < width) (le : width ≤ Word.maxBits) :
    (s.run before).load addr width [] = .ok (.var (s.unresolvedName addr width) width) := by
  rw [load_unplaced hplace pos le, unresolvedName, name_run hbefore, ← unresolvedName]

/-- A load that can be placed reads what the concrete run reads. -/
theorem exists_denotes_load_placed (hm : m.Total) (hstart : StartsFrom m a name initial)
    (hbefore : ∀ x ∈ before, x.Placed a) (haddr : addr.Assigned a) {place : Nat}
    (hplace : addr.addressValue? = some place) (pos : 0 < width) (le : width ≤ Word.maxBits) :
    ∃ t, ((empty name order).run before).load addr width [] = .ok t ∧
      t.Denotes m (loaded a order initial before addr width) := by
  have hempty : (empty name order).CellsWellFormed := cellsWellFormed_empty name order
  obtain ⟨hcells, horder⟩ := cellsWellFormed_run hempty fun x hx => (hbefore x hx).wellFormed
  have hflat : ((empty name order).run before).flat m = runFlat a order initial before := by
    rw [flat_run hempty hbefore hstart.numbers, hstart.flat_empty]
    rfl
  obtain ⟨t, hload, ht⟩ := denotes_loadConcrete hcells hm (addr.address a) pos le
  have hlt : place < 2 ^ 64 := (addressValue?_eq_some_iff.1 hplace).2
  refine ⟨t, ?_, ?_⟩
  · rw [load_placed hplace le, ← hload, haddr.address_eq hplace, BitVec.toNat_ofNat,
      Nat.mod_eq_of_lt hlt]
  · rwa [hflat, horder] at ht

/-! ## Loads that cannot be placed -/

/-- A load of a run that returns a variable, as it cannot be placed. -/
structure UnplacedLoad (accesses : List Access) where
  before : List Access
  addr : Term
  width : Nat
  loads : LoadsAfter accesses before addr width
  unplaced : addr.addressValue? = none
  width_pos : 0 < width
  width_le : width ≤ Word.maxBits

/-- What a load reads in the concrete run. -/
def UnplacedLoad.value (a : Model) (order : ByteOrder) (initial : FlatMemory)
    (l : UnplacedLoad accesses) : Nat :=
  (loaded a order initial l.before l.addr l.width).toNat

/-- Loads of one address and width that cannot be placed read the same, all
through the concrete run. -/
def Stable (a : Model) (order : ByteOrder) (initial : FlatMemory) (accesses : List Access) : Prop :=
  ∀ l l' : UnplacedLoad accesses, l.addr = l'.addr → l.width = l'.width →
    l.value a order initial = l'.value a order initial

/-- Under a model that has the variables of a store start from a concrete
memory, every load returns a term of the value that the concrete run reads.
No load of another width returns a term. -/
structure Represents (m a : Model) (name : String) (order : ByteOrder) (initial : FlatMemory)
    (accesses : List Access) : Prop extends StartsFrom m a name initial where
  loads : ∀ {before addr width}, LoadsAfter accesses before addr width → 0 < width →
    width ≤ Word.maxBits → ∃ t, ((empty name order).run before).load addr width [] = .ok t ∧
      t.Denotes m (loaded a order initial before addr width)

theorem LoadsAfter.mem (h : LoadsAfter accesses before addr width) :
    .load addr width [] ∈ accesses :=
  h.subset (List.mem_append_right _ List.mem_cons_self)

theorem LoadsAfter.addr_assigned (h : LoadsAfter accesses before addr width)
    (haccesses : ∀ x ∈ accesses, x.Placed a) : addr.Assigned a := by
  cases haccesses _ h.mem with
  | load haddr => exact haddr

theorem LoadsAfter.before_placed (h : LoadsAfter accesses before addr width)
    (haccesses : ∀ x ∈ accesses, x.Placed a) : ∀ x ∈ before, x.Placed a :=
  fun x hx => haccesses x (h.subset (List.mem_append_left _ hx))

/-- Two loads that return one variable read what the model gives to it. -/
theorem stable_of_represents (haccesses : ∀ x ∈ accesses, x.Placed a)
    (h : Represents m a name order initial accesses) : Stable a order initial accesses := by
  have hvar : ∀ l : UnplacedLoad accesses,
      (Term.var ((empty name order).unresolvedName l.addr l.width) l.width).Denotes m
        (loaded a order initial l.before l.addr l.width) := by
    intro l
    obtain ⟨t, hload, ht⟩ := h.loads l.loads l.width_pos l.width_le
    rw [load_run_unplaced (l.loads.before_placed haccesses) l.unplaced l.width_pos
      l.width_le] at hload
    obtain rfl := Except.ok.inj hload
    exact ht
  rintro ⟨before, addr, width, hloads, hplace, pos, le⟩ ⟨before', _, _, hloads', _, _, _⟩ rfl rfl
  have hread := hvar ⟨before, addr, width, hloads, hplace, pos, le⟩
  have hread' := hvar ⟨before', addr, width, hloads', hplace, pos, le⟩
  exact congrArg BitVec.toNat (hread.unique hread')

/-! ## The model of a stable run -/

/-- A model that gives every load that cannot be placed what it reads, every
byte its number at the start, and every other variable the number it has. -/
noncomputable def standIn (a : Model) (name : String) (order : ByteOrder) (initial : FlatMemory)
    (accesses : List Access) : Model := fun n =>
  some <| Function.extend
    (fun l : UnplacedLoad accesses => (empty name order).unresolvedName l.addr l.width)
    (UnplacedLoad.value a order initial)
    (Function.extend (fun addr : BitVec 64 => (empty name order).byteName addr.toNat)
      (fun addr => (initial addr).toNat) fun n => (a n).getD 0) n

theorem standIn_load (hstable : Stable a order initial accesses)
    (hdigest : Set.InjOn Term.digest {addr | ∃ width, Access.load addr width [] ∈ accesses})
    (l : UnplacedLoad accesses) :
    standIn a name order initial accesses ((empty name order).unresolvedName l.addr l.width) =
      some (l.value a order initial) := by
  have hname : Function.FactorsThrough (UnplacedLoad.value a order initial)
      fun l : UnplacedLoad accesses => (empty name order).unresolvedName l.addr l.width := by
    intro l l' h
    obtain ⟨hdigests, hwidth⟩ := unresolvedName_inj h
    have haddr := hdigest ⟨l.width, l.loads.mem⟩ ⟨l'.width, l'.loads.mem⟩ hdigests
    exact hstable l l' haddr hwidth
  exact congrArg some (hname.extend_apply _ l)

theorem standIn_byte (addr : BitVec 64) :
    standIn a name order initial accesses (name ++ "_" ++ hexDigits addr.toNat) =
      some (initial addr).toNat := by
  have hother : ¬∃ l : UnplacedLoad accesses, (empty name order).unresolvedName l.addr l.width =
      (empty name order).byteName addr.toNat := by
    rintro ⟨l, hl⟩
    exact byteName_ne_unresolvedName _ _ _ hl.symm
  have hbytes : Function.Injective fun addr : BitVec 64 =>
      (empty name order).byteName addr.toNat :=
    fun addr addr' h => BitVec.eq_of_toNat_eq (byteName_inj h)
  refine congrArg some ((Function.extend_apply' _ _ _ hother).trans ?_)
  exact hbytes.extend_apply _ _ addr

theorem standIn_number (hnames : ∀ rest, a (name ++ "_" ++ rest) = none) :
    (standIn a name order initial accesses).Extends a := by
  intro n value hvalue
  have hload : ¬∃ l : UnplacedLoad accesses,
      (empty name order).unresolvedName l.addr l.width = n := by
    rintro ⟨l, rfl⟩
    rw [unresolvedName_eq] at hvalue
    exact Option.some_ne_none value (hvalue.symm.trans (hnames _))
  have hbyte : ¬∃ addr : BitVec 64, (empty name order).byteName addr.toNat = n := by
    rintro ⟨addr, rfl⟩
    exact Option.some_ne_none value (hvalue.symm.trans (hnames _))
  refine congrArg some ((Function.extend_apply' _ _ _ hload).trans ?_)
  rw [Function.extend_apply' _ _ _ hbyte, hvalue, Option.getD_some]

theorem represents_standIn (haccesses : ∀ x ∈ accesses, x.Placed a)
    (hnames : ∀ rest, a (name ++ "_" ++ rest) = none)
    (hdigest : Set.InjOn Term.digest {addr | ∃ width, Access.load addr width [] ∈ accesses})
    (hstable : Stable a order initial accesses) :
    Represents (standIn a name order initial accesses) a name order initial accesses := by
  have hstart : StartsFrom (standIn a name order initial accesses) a name initial :=
    ⟨standIn_number hnames, standIn_byte⟩
  refine ⟨hstart, fun {before addr width} hloads pos le => ?_⟩
  have hbefore := hloads.before_placed haccesses
  cases hplace : addr.addressValue? with
  | some place =>
    exact exists_denotes_load_placed (fun n => ⟨_, rfl⟩) hstart hbefore
      (hloads.addr_assigned haccesses) hplace pos le
  | none =>
    refine ⟨_, load_run_unplaced hbefore hplace pos le, ?_⟩
    have hvalue : standIn a name order initial accesses
        ((empty name order).unresolvedName addr width) = some _ :=
      standIn_load hstable hdigest ⟨before, addr, width, hloads, hplace, pos, le⟩
    refine (Denotes.var le hvalue).congr rfl ?_
    rw [BitVec.toNat_ofNat]
    exact Nat.mod_eq_of_lt (BitVec.isLt _)

/-- The terms that a store returns in a run represent a concrete run just if
the loads that cannot be placed are stable there. -/
theorem exists_represents_iff_stable (haccesses : ∀ x ∈ accesses, x.Placed a)
    (hnames : ∀ rest, a (name ++ "_" ++ rest) = none)
    (hdigest : Set.InjOn Term.digest {addr | ∃ width, Access.load addr width [] ∈ accesses}) :
    (∃ m, Represents m a name order initial accesses) ↔ Stable a order initial accesses := by
  constructor
  · rintro ⟨m, h⟩
    exact stable_of_represents haccesses h
  · intro hstable
    exact ⟨_, represents_standIn haccesses hnames hdigest hstable⟩

/-! ### A byte that a pointer points to -/

theorem not_loadsAfter_nil : ¬LoadsAfter [] before addr width :=
  fun h => List.not_mem_nil h.mem

theorem loadsAfter_cons {x : Access} : LoadsAfter (x :: accesses) before addr width ↔
    before = [] ∧ .load addr width [] = x ∨
      ∃ rest, before = x :: rest ∧ LoadsAfter accesses rest addr width := by
  cases before with
  | nil => simp [LoadsAfter, List.cons_prefix_cons]
  | cons y rest => simp [LoadsAfter, List.cons_prefix_cons, and_assoc]

/-- A pointer, and a place above the byte that it points to. -/
def pointer : Term := .var "p" 64

def abovePointer : Term := .binary .add pointer (.const 0x10 64)

/-- The numbers of the pointer and of a value. -/
def pointerNumbers : Model := .ofList [("p", 0x10), ("v", 0x1234)]

theorem pointerNumbers_memory (rest : String) : pointerNumbers ("mem" ++ "_" ++ rest) = none := by
  have hne : ∀ {c : Char} {cs : List Char}, c ≠ 'm' →
      ("mem" ++ "_" ++ rest == String.ofList (c :: cs)) = false := by
    intro c cs hc
    refine beq_eq_false_iff_ne.2 fun h => hc ?_
    have hlists := congrArg String.toList h
    rw [String.toList_append, String.toList_ofList] at hlists
    exact (List.cons.inj hlists).1.symm
  have hp : ("mem" ++ "_" ++ rest == "p") = false := hne (by decide)
  have hv : ("mem" ++ "_" ++ rest == "v") = false := hne (by decide)
  rw [pointerNumbers, Model.ofList, List.lookup_cons, hp, List.lookup_cons, hv]
  rfl

theorem assigned_pointer : pointer.Assigned pointerNumbers where
  hasSort := ⟨64, .var "p" (by decide) (by decide)⟩
  numbers := by
    intro p hp
    obtain rfl := List.mem_singleton.1 hp
    exact ⟨0x10, rfl⟩

/-- A value is written above the byte that the pointer points to, and is read
from there. -/
def passed : List Access :=
  [.load pointer 8 [], .store (.const 0x20 64) (.var "v" 16), .load pointer 8 [],
    .load abovePointer 16 []]

theorem placed_passed : ∀ x ∈ passed, x.Placed pointerNumbers := by
  have hconst : (Term.const 0x20 64).Assigned pointerNumbers :=
    ⟨⟨64, .const (by decide) (by decide) (by decide)⟩, List.forall_mem_nil _⟩
  have hvalue : (Term.var "v" 16).Assigned pointerNumbers := by
    refine ⟨⟨16, .var "v" (by decide) (by decide)⟩, fun p hp => ?_⟩
    obtain rfl := List.mem_singleton.1 hp
    exact ⟨0x1234, rfl⟩
  have habove : abovePointer.Assigned pointerNumbers := by
    refine ⟨⟨64, .binary .add (.var "p" (by decide) (by decide))
      (.const (by decide) (by decide) (by decide))⟩, fun p hp => ?_⟩
    obtain rfl := List.mem_singleton.1 hp
    exact ⟨0x10, rfl⟩
  have hload : ∀ width, (Access.load pointer width []).Placed pointerNumbers :=
    .load assigned_pointer
  intro x hx
  simp only [passed, List.mem_cons, List.not_mem_nil, or_false] at hx
  rcases hx with rfl | rfl | rfl | rfl
  · exact hload 8
  · exact .store hconst rfl hvalue
  · exact hload 8
  · exact .load habove 16

/-- Every load of a byte finds the byte of the start, and the load of two
bytes finds what was written. -/
theorem loaded_passed (h : LoadsAfter passed before addr width) :
    (loaded pointerNumbers .big (fun _ => 0) before addr width).toNat =
      if width = 8 then 0 else 0x1234 := by
  simp only [passed, loadsAfter_cons, not_loadsAfter_nil, and_false, exists_false, or_false,
    reduceCtorEq, false_or, Access.load.injEq, and_true] at h
  rcases h with ⟨rfl, rfl, rfl⟩ | ⟨_, rfl, _, rfl, ⟨rfl, rfl, rfl⟩ | ⟨_, rfl, rfl, rfl, rfl⟩⟩
  all_goals decide +kernel

theorem exists_represents_iff_stable_passed :
    (∃ m, Represents m pointerNumbers "mem" .big (fun _ => 0) passed) ∧
      loaded pointerNumbers .big (fun _ => 0) (passed.take 3) abovePointer 16 = 0x1234 := by
  have haddrs : {addr | ∃ width, Access.load addr width [] ∈ passed} ⊆ {pointer, abovePointer} := by
    rintro addr ⟨width, h⟩
    simp only [passed, List.mem_cons, Access.load.injEq, List.not_mem_nil, or_false, reduceCtorEq,
      false_or] at h
    rcases h with ⟨rfl, -⟩ | ⟨rfl, -⟩ | ⟨rfl, -⟩
    · exact Set.mem_insert _ _
    · exact Set.mem_insert _ _
    · exact Set.mem_insert_of_mem _ rfl
  have hdigests : pointer.digest ≠ abovePointer.digest := by decide +kernel
  have hdigest := (Set.injOn_pair.2 fun h => absurd h hdigests).mono haddrs
  have hstable : Stable pointerNumbers .big (fun _ => 0) passed := by
    intro l l' _ hwidth
    rw [UnplacedLoad.value, UnplacedLoad.value, loaded_passed l.loads, loaded_passed l'.loads,
      hwidth]
  exact ⟨(exists_represents_iff_stable placed_passed pointerNumbers_memory hdigest).2 hstable,
    by decide +kernel⟩

/-- The byte that the pointer points to is read, overwritten, and read again. -/
def overwritten : List Access :=
  [.load pointer 8 [], .storeBytes 0x10 [0xff], .load pointer 8 []]

/-- No model represents a run that overwrites what a load found. -/
theorem not_represents_overwritten :
    (∀ x ∈ overwritten, x.Placed pointerNumbers) ∧
      (∀ rest, pointerNumbers ("mem" ++ "_" ++ rest) = none) ∧
      Set.InjOn Term.digest {addr | ∃ width, Access.load addr width [] ∈ overwritten} ∧
      ¬∃ m, Represents m pointerNumbers "mem" .big (fun _ => 0) overwritten := by
  have hplaced : ∀ x ∈ overwritten, x.Placed pointerNumbers := by
    intro x hx
    simp only [overwritten, List.mem_cons, List.not_mem_nil, or_false] at hx
    rcases hx with rfl | rfl | rfl
    · exact .load assigned_pointer 8
    · exact .storeBytes _ _
    · exact .load assigned_pointer 8
  refine ⟨hplaced, pointerNumbers_memory, ?_, ?_⟩
  · rintro addr ⟨width, haddr⟩ addr' ⟨width', haddr'⟩ -
    simp only [overwritten, List.mem_cons, Access.load.injEq, List.not_mem_nil, or_false,
      reduceCtorEq, false_or, or_self] at haddr haddr'
    exact haddr.1.trans haddr'.1.symm
  · rintro ⟨m, hm⟩
    have hread := stable_of_represents hplaced hm
      ⟨[], pointer, 8, loadsAfter_cons.2 (.inl ⟨rfl, rfl⟩), rfl, by decide, by decide⟩
      ⟨overwritten.take 2, pointer, 8, List.prefix_rfl, rfl, by decide, by decide⟩ rfl rfl
    exact absurd hread (by decide +kernel)

end ByteStore

end SymLift
