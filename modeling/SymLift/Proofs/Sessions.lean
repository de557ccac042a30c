import SymLift.Proofs.Enumeration
import SymLift.Proofs.HeldVariables

/-!
# One name, one variable

A `Session` is a path state together with the terms that were read from it.
What is done to it is a `Command`: an access to a store, a binding, an
assumption, a translation, or a call of a built-in summary.

Stores make up names of variables.  The terms that are given to commands may
use any other name, at one width each, and all variables that the session
holds already.  Then a name is that of one variable only.

* `Names` is the set of variables that can come up, and `eq_width` says that
  each name has one width there.
* `Session.Over.step`: a command keeps the session over a set of variables.
* `Session.Reachable.over`: by induction, a session that can be reached is
  over `Names`.
* `Session.Reachable.oneWidth`: the constraints of such a session are as
  `Solver.OneWidth` asks, so enumeration decides them
  (`Session.Reachable.check_answers`).
* `Session.one_variable_per_name` puts them together.
-/

namespace SymLift

open Term

/-! ## The stores of a path state -/

/-- A store of a path state. -/
inductive StoreKind where
  | registers
  | memory
  deriving DecidableEq

namespace StoreKind

/-- The name of a store. -/
def name : StoreKind → String
  | registers => "reg"
  | memory => "mem"

/-- The store. -/
def get (s : PathState) : StoreKind → ByteStore
  | registers => s.registers
  | memory => s.memory

/-- The state with another store. -/
def set (s : PathState) (store : ByteStore) : StoreKind → PathState
  | registers => { s with registers := store }
  | memory => { s with memory := store }

end StoreKind

/-! ## Names -/

namespace ByteStore

variable {s s' : ByteStore} {n : String} {v w : Nat}

theorem names_congr (h : s.name = s'.name) : s.names = s'.names := by
  unfold names byteName unresolvedName
  rw [h]

/-- The names that a store makes up begin with the name of the store. -/
theorem exists_of_mem_names (h : (n, v) ∈ s.names) : ∃ rest, n = s.name ++ "_" ++ rest := by
  rcases h with ⟨addr, h⟩ | ⟨addr, width, h⟩
  · exact ⟨_, (Prod.ext_iff.1 h).1⟩
  · exact ⟨_, (Prod.ext_iff.1 h).1.trans (s.unresolvedName_eq addr width)⟩

/-- A name that a store makes up has one width. -/
theorem eq_width_of_mem_names (h : (n, v) ∈ s.names) (h' : (n, w) ∈ s.names) : v = w := by
  rcases h with ⟨a, h⟩ | ⟨t, u, h⟩ <;> rcases h' with ⟨b, h'⟩ | ⟨t', u', h'⟩ <;> cases h
  · exact (Prod.ext_iff.1 h').2.symm
  · exact absurd (Prod.ext_iff.1 h').1 (byteName_ne_unresolvedName a t' u')
  · exact absurd (Prod.ext_iff.1 h').1.symm (byteName_ne_unresolvedName b t v)
  · obtain ⟨hname, rfl⟩ := Prod.ext_iff.1 h'
    exact (unresolvedName_inj hname).2

theorem byteAt_of_getElem?_eq_none {addr : Nat} (h : s.cells[addr]? = none) :
    s.byteAt addr = .var (s.byteName addr) 8 := by
  rw [byteAt, h]
  rfl

end ByteStore

/-- Names that begin like those that stores make up. -/
def Reserved (name : String) : Prop := ∃ rest, name = "mem_" ++ rest ∨ name = "reg_" ++ rest

/-- A variable that no store names, at the width that its name has. -/
def External (widths : String → Nat) (p : String × Nat) : Prop :=
  ¬Reserved p.1 ∧ p.2 = widths p.1

/-- The variables that can come up: those from outside, and those that the
stores name. -/
def Names (widths : String → Nat) : Set (String × Nat) :=
  {p | External widths p ∨ ∃ k : StoreKind, ∃ s : ByteStore, s.name = k.name ∧ p ∈ s.names}

namespace StoreKind

variable {k k' : StoreKind} {s s' : ByteStore}

theorem reserved (hs : s.name = k.name) (rest : String) : Reserved (s.name ++ "_" ++ rest) := by
  refine ⟨rest, ?_⟩
  rw [hs]
  cases k with
  | registers => exact .inr rfl
  | memory => exact .inl rfl

/-- The stores have names that differ in their first letters. -/
theorem eq_of_append (hs : s.name = k.name) (hs' : s'.name = k'.name) {rest rest' : String}
    (h : s.name ++ "_" ++ rest = s'.name ++ "_" ++ rest') : k = k' := by
  have hfirst := congrArg (·.toList.head?) h
  rw [hs, hs'] at hfirst
  cases k with
  | registers =>
    cases k' with
    | registers => rfl
    | memory => simp [name] at hfirst
  | memory =>
    cases k' with
    | registers => simp [name] at hfirst
    | memory => rfl

/-- A byte has a name that no other byte of any store has. -/
theorem byteName_inj (hs : s.name = k.name) (hs' : s'.name = k'.name) {a b : Nat}
    (h : s.byteName a = s'.byteName b) : k = k' ∧ a = b := by
  obtain rfl := eq_of_append hs hs' h
  refine ⟨rfl, ByteStore.byteName_inj (s := s) (h.trans ?_)⟩
  rw [ByteStore.byteName, ByteStore.byteName, hs, hs']

theorem byteName_ne_unresolvedName (hs : s.name = k.name) (hs' : s'.name = k'.name) (a : Nat)
    (addr : Term) (width : Nat) : s.byteName a ≠ s'.unresolvedName addr width := by
  intro h
  obtain rfl := eq_of_append hs hs' (h.trans (s'.unresolvedName_eq addr width))
  refine ByteStore.byteName_ne_unresolvedName (s := s) a addr width (h.trans ?_)
  rw [ByteStore.unresolvedName, ByteStore.unresolvedName, hs, hs']

end StoreKind

/-- Among the variables that can come up, a name has one width. -/
theorem Names.eq_width {widths : String → Nat} {n : String} {v w : Nat}
    (h : (n, v) ∈ Names widths) (h' : (n, w) ∈ Names widths) : v = w := by
  rcases h with ⟨hfree, hv⟩ | ⟨k, s, hs, h⟩ <;> rcases h' with ⟨hfree', hw⟩ | ⟨k', s', hs', h'⟩
  · exact hv.trans hw.symm
  · obtain ⟨rest, rfl⟩ := ByteStore.exists_of_mem_names h'
    exact absurd (StoreKind.reserved hs' rest) hfree
  · obtain ⟨rest, rfl⟩ := ByteStore.exists_of_mem_names h
    exact absurd (StoreKind.reserved hs rest) hfree'
  · obtain ⟨rest, hn⟩ := ByteStore.exists_of_mem_names h
    obtain ⟨rest', hn'⟩ := ByteStore.exists_of_mem_names h'
    obtain rfl := StoreKind.eq_of_append hs hs' (hn.symm.trans hn')
    rw [← ByteStore.names_congr (hs.trans hs'.symm)] at h'
    exact ByteStore.eq_width_of_mem_names h h'

/-! ## Sessions -/

/-- Something that is done to a session. -/
inductive Command where
  /-- A store is written or read. -/
  | access (k : StoreKind) (a : ByteStore.Access)
  | bindTemp (tmp : Nat) (value : Term)
  | clearTemps
  | addConstraints (more : List Term)
  | translate (policy : ArgumentPolicy) (e : IR.Expr)
  /-- A summary is called on given arguments. -/
  | inlineCall (config : Config) (b : BuiltIn) (args : List Term)
  /-- A summary is called as the guest calls it. -/
  | invoke (config : Config) (b : BuiltIn) (cc : Convention)

/-- The terms that are given to a command. -/
def Command.terms : Command → List Term
  | .access _ a => a.terms
  | .bindTemp _ value => [value]
  | .addConstraints more => more
  | .inlineCall _ _ args => args
  | .clearTemps | .translate .. | .invoke .. => []

/-- A path state, and the terms that were read from it. -/
structure Session where
  state : PathState
  /-- What commands gave: values that were loaded, translated or returned, and
  the side conditions of those that were translated. -/
  results : List Term

namespace Session

/-- A session in which nothing was done. -/
def start (guest : Guest) : Session := { state := .start guest, results := [] }

/-- A summary is run.  What one that fails did to the state stays done. -/
def call (σ : Session) (x : Execution ReturnValue) : Session where
  state := (x.runOn σ.state).2
  results := σ.results ++ ((x.runOn σ.state).1.toOption.join).toList

/-- What a command does.  One that fails gives nothing. -/
def step (σ : Session) : Command → Session
  | .access k a => {
      state := k.set σ.state ((k.get σ.state).access a)
      results := σ.results ++ ((k.get σ.state).read? a).toList }
  | .bindTemp tmp value => { σ with state := σ.state.bindTemp tmp value }
  | .clearTemps => { σ with state := σ.state.clearTemps }
  | .addConstraints more => { σ with state := σ.state.addConstraints more }
  | .translate policy e =>
    match σ.state.lift policy e with
    | .ok v => { σ with results := σ.results ++ v.value :: v.needs }
    | .error _ => σ
  | .inlineCall config b args => σ.call (b.summary.inlineCall config args)
  | .invoke config b cc => σ.call (b.summary.invoke config cc)

/-- A term is a cell, a temporary, a constraint, part of an output record, or
a result. -/
inductive Holds (σ : Session) : Term → Prop where
  | cell {k : StoreKind} {addr : Nat} {t : Term} (h : (k.get σ.state).cells[addr]? = some t) :
    Holds σ t
  | temp {tmp : Nat} {t : Term} (h : σ.state.temp? tmp = some t) : Holds σ t
  | constraint {t : Term} (h : t ∈ σ.state.constraints) : Holds σ t
  | data {fd : Nat} {r : WriteRecord} {t : Term} (hr : r ∈ σ.state.channels.writes fd)
    (h : t ∈ r.data) : Holds σ t
  | length {fd : Nat} {r : WriteRecord} (hr : r ∈ σ.state.channels.writes fd) : Holds σ r.length
  | result {t : Term} (h : t ∈ σ.results) : Holds σ t

/-- A variable occurs in a session. -/
def Occurs (σ : Session) (p : String × Nat) : Prop := ∃ t, σ.Holds t ∧ p ∈ t.occurrences

/-- The sessions that commands lead to.  The variables of the terms that are
given to a command are external, or occur in the session already. -/
inductive Reachable (widths : String → Nat) : Session → Prop where
  | start (guest : Guest) : Reachable widths (start guest)
  | step {σ : Session} (hσ : Reachable widths σ) (c : Command)
    (hc : ∀ t ∈ c.terms, ∀ p ∈ t.occurrences, External widths p ∨ σ.Occurs p) :
    Reachable widths (σ.step c)

/-- Every term of a session is over a set. -/
structure Over (V : Set (String × Nat)) (σ : Session) : Prop where
  state : σ.state.Over V
  results : ∀ t ∈ σ.results, t.Over V

variable {V : Set (String × Nat)} {σ : Session} {widths : String → Nat}

namespace Over

theorem get (h : σ.Over V) (k : StoreKind) : (k.get σ.state).Over V k.name := by
  cases k with
  | registers => exact h.state.registers
  | memory => exact h.state.memory

theorem of_holds (h : σ.Over V) {t : Term} (ht : σ.Holds t) : t.Over V := by
  cases ht with
  | @cell k addr t hcell =>
    have hbyte := (h.get k).bytes addr
    rwa [ByteStore.byteAt, hcell] at hbyte
  | temp htemp => exact h.state.temps htemp
  | constraint hmem => exact h.state.constraints _ hmem
  | data hr hmem => exact (h.state.writes _ _ hr).data _ hmem
  | length hr => exact (h.state.writes _ _ hr).length
  | result hmem => exact h.results _ hmem

theorem mem (h : σ.Over V) {p : String × Nat} (hp : σ.Occurs p) : p ∈ V := by
  obtain ⟨t, ht, hmem⟩ := hp
  exact h.of_holds ht p hmem

theorem call (h : σ.Over V) {x : Execution ReturnValue}
    (hx : Execution.Keeps V x (ReturnValue.Over V)) : (σ.call x).Over V := by
  obtain ⟨hstate, hresult⟩ := hx σ.state h.state
  refine ⟨hstate, List.forall_mem_append.2 ⟨h.results, fun t ht => ?_⟩⟩
  have hreturned := Option.join_eq_some_iff.1 (Option.mem_toList.1 ht)
  exact hresult _ (toOption_eq_some_iff.1 hreturned) t rfl

/-- A command keeps a session over a set, if the terms that are given to it
are over the set. -/
theorem step (h : σ.Over V) {c : Command} (hc : ∀ t ∈ c.terms, t.Over V) : (σ.step c).Over V := by
  cases c with
  | access k a =>
    have hstore := (h.get k).access hc
    refine ⟨?_, List.forall_mem_append.2 ⟨h.results, fun t ht => ?_⟩⟩
    · cases k with
      | registers => exact { h.state with registers := hstore }
      | memory => exact { h.state with memory := hstore }
    · exact (h.get k).of_read? (Option.mem_toList.1 ht)
  | bindTemp tmp value => exact ⟨h.state.bindTemp tmp (hc value List.mem_cons_self), h.results⟩
  | clearTemps => exact ⟨h.state.clearTemps, h.results⟩
  | addConstraints more => exact ⟨h.state.addConstraints hc, h.results⟩
  | translate policy e =>
    unfold Session.step
    dsimp only
    split
    · rename_i v hlift
      have hv := h.state.lift hlift
      have hgiven := List.forall_mem_cons.2 ⟨hv.value, hv.needs⟩
      exact ⟨h.state, List.forall_mem_append.2 ⟨h.results, hgiven⟩⟩
    · exact h
  | inlineCall config b args => exact h.call (BuiltIn.keeps_inlineCall hc)
  | invoke config b cc => exact h.call (BuiltIn.keeps_invoke cc)

end Over

/-- A session that can be reached has no variables but those from outside and
those that the stores name. -/
theorem Reachable.over (h : Reachable widths σ) : σ.Over (Names widths) := by
  induction h with
  | start guest =>
    exact ⟨PathState.over_start (fun p hp => .inr ⟨.registers, _, rfl, hp⟩)
      (fun p hp => .inr ⟨.memory, _, rfl, hp⟩), List.forall_mem_nil _⟩
  | step _ c hc ih =>
    refine ih.step fun t ht p hp => ?_
    rcases hc t ht p hp with hexternal | hoccurs
    · exact .inl hexternal
    · exact ih.mem hoccurs

/-- The constraints on a path are such as the enumeration asks for. -/
theorem Reachable.oneWidth (h : Reachable widths σ) : Solver.OneWidth σ.state.constraints := by
  rintro c hc d hd ⟨n, v⟩ hp ⟨_, w⟩ hq rfl
  exact Names.eq_width (h.over.mem ⟨c, .constraint hc, hp⟩) (h.over.mem ⟨d, .constraint hd, hq⟩)

/-- Enumeration decides the constraints on a path, whatever was done to reach
it.  The constraints must be well-formed conditions, and their variables not
so wide that their bits cannot be counted. -/
theorem Reachable.check_answers (h : Reachable widths σ) (maxBits : Nat)
    (hsort : ∀ c ∈ σ.state.constraints, c.HasSort .bool)
    (hfits : Solver.totalBits (Solver.freeVars σ.state.constraints) < 2 ^ 32) :
    ∃ verdict, Solver.check maxBits σ.state.constraints = .ok verdict ∧
      Solver.Answers maxBits (Solver.freeVars σ.state.constraints) σ.state.constraints verdict :=
  Solver.check_answers maxBits hsort h.oneWidth hfits

/-- In a session that can be reached, a name is that of one variable.  It has
one width in all terms that the session holds.  Bytes that were never written
are the same variable only if they are the same byte, and none of them has the
name of a load that cannot be placed. -/
theorem one_variable_per_name (h : Reachable widths σ) :
    (∀ n v w, σ.Occurs (n, v) → σ.Occurs (n, w) → v = w) ∧
    (∀ (k k' : StoreKind) (a b : Nat), (k.get σ.state).cells[a]? = none →
      (k'.get σ.state).cells[b]? = none →
      ((k.get σ.state).byteAt a = (k'.get σ.state).byteAt b ↔ k = k' ∧ a = b)) ∧
    ∀ (k k' : StoreKind) (a : Nat) (addr : Term) (width : Nat),
      (k.get σ.state).byteName a ≠ (k'.get σ.state).unresolvedName addr width := by
  have hover := h.over
  have hname (k : StoreKind) : (k.get σ.state).name = k.name := (hover.get k).name_eq
  refine ⟨fun n v w hv hw => Names.eq_width (hover.mem hv) (hover.mem hw), ?_, ?_⟩
  · intro k k' a b ha hb
    constructor
    · intro hbyte
      rw [ByteStore.byteAt_of_getElem?_eq_none ha, ByteStore.byteAt_of_getElem?_eq_none hb] at hbyte
      exact StoreKind.byteName_inj (hname k) (hname k') (Term.var.inj hbyte).1
    · rintro ⟨rfl, rfl⟩
      rfl
  · exact fun k k' => StoreKind.byteName_ne_unresolvedName (hname k) (hname k')

/-- A pointer. -/
def pointer : Term := .var "p" 64

/-- The word that the pointer points to, as a lifted load gives it. -/
def pointee : Term :=
  Fold.reverseBytes (.var ((ByteStore.empty "mem" .big).unresolvedName pointer 32) 32)

/-- A word is loaded through a pointer. -/
def loading : Session :=
  [Command.bindTemp 7 pointer, .translate .first (.load .little .i32 (.rdTmp 7))].foldl step
    (start .amd64)

/-- The word that was loaded is written to memory. -/
def storing : Session := loading.step (.access .memory (.store (.const 0x1000 64) pointee))

theorem results_loading : loading.results = [pointee] := by
  decide +kernel

theorem one_variable_per_name_storing :
    Reachable (fun _ => 64) storing ∧ storing.Occurs ("p", 64) ∧
      (∀ w, storing.Occurs ("p", w) → w = 64) ∧
      storing.state.memory.byteAt 0x2000 ≠ storing.state.registers.byteAt 0x2000 := by
  have hfree : ¬Reserved "p" := by
    rintro ⟨rest, h | h⟩ <;> simpa using congrArg (·.toList.head?) h
  have hloading : Reachable (fun _ => 64) loading := by
    refine ((Reachable.start .amd64).step (.bindTemp 7 pointer) ?_).step
      (.translate .first (.load .little .i32 (.rdTmp 7))) nofun
    refine List.forall_mem_singleton.2 fun p hp => .inl ?_
    obtain rfl := List.mem_singleton.1 hp
    exact ⟨hfree, rfl⟩
  have hstoring : Reachable (fun _ => 64) storing := by
    refine hloading.step _ fun t ht p hp => .inr ?_
    rcases List.mem_cons.1 ht with rfl | ht
    · cases hp
    · obtain rfl := List.mem_singleton.1 ht
      exact ⟨pointee, .result (results_loading ▸ List.mem_cons_self), hp⟩
  have hpointer : storing.Occurs ("p", 64) :=
    ⟨pointer, .temp (show storing.state.temp? 7 = some pointer by decide +kernel),
      List.mem_cons_self⟩
  obtain ⟨hwidth, hbytes, -⟩ := one_variable_per_name hstoring
  refine ⟨hstoring, hpointer, fun w hw => hwidth "p" w 64 hw hpointer, fun hbyte => ?_⟩
  have hsame := (hbytes .memory .registers 0x2000 0x2000 (by decide +kernel)
    (by decide +kernel)).1 hbyte
  cases hsame.1

end Session

end SymLift
