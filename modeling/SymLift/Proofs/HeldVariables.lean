import SymLift.Proofs.Footprints
import SymLift.Proofs.Lifting
import SymLift.Proofs.Occurrences
import SymLift.Proofs.StoreNames

/-!
# The variables that a path state holds

`ByteStore.Over` and `PathState.Over` say that every term of a store, and of
a path state, is over a set of variables.  The set has the variables of the
loads that cannot be placed, so what is read is over it as well.  What is done
to a state keeps that, if the terms that are given to it are over the set.

* `ByteStore.Over.access` and `ByteStore.Over.of_load`: writing to a store and
  reading from it.
* `FoldClosed.of_choice`: what a choice between lifted values relies on.
* `PathState.Over.lift`: a lifted value, and what it relies on.
* `Execution.Keeps` says it of an execution, whether it succeeds or fails, and
  `Keeps.bind` of one after another.
* `BuiltIn.keeps_inlineCall` and `BuiltIn.keeps_invoke`: the summaries.
-/

namespace SymLift

open Term

variable {V : Set (String × Nat)}

/-! ## Stores -/

namespace ByteStore

/-- The variables that a store names. -/
def names (s : ByteStore) : Set (String × Nat) :=
  {p | (∃ addr, p = (s.byteName addr, 8)) ∨
    ∃ addr width, p = (s.unresolvedName addr width, width)}

/-- The bytes of a store are over a set, and the set has the variables of the
loads that cannot be placed. -/
structure Over (V : Set (String × Nat)) (name : String) (s : ByteStore) : Prop where
  name_eq : s.name = name
  bytes : ∀ addr, (s.byteAt addr).Over V
  loads : ∀ addr width, (s.unresolvedName addr width, width) ∈ V

/-- The terms that are given to an access. -/
def Access.terms : Access → List Term
  | .storeBytes .. | .loadConcrete .. => []
  | .storeConcrete _ value => [value]
  | .store addr value => [addr, value]
  | .load addr _ known => addr :: known

/-- What an access reads. -/
def read? (s : ByteStore) : Access → Option Term
  | .loadConcrete addr width => (s.loadConcrete addr.toNat width).toOption
  | .load addr width known => (s.load addr width known).toOption
  | .storeBytes .. | .storeConcrete .. | .store .. => none

variable {s s' : ByteStore} {name : String} {order : ByteOrder} {addr count width : Nat}
  {place value t : Term} {known bytes : List Term}

theorem over_empty (h : (empty name order).names ⊆ V) : (empty name order).Over V name where
  name_eq := rfl
  bytes addr := by
    rw [byteAt_empty, over_var_iff]
    exact h (.inl ⟨addr, rfl⟩)
  loads addr width := h (.inr ⟨addr, width, rfl⟩)

namespace Over

theorem setByte (h : s.Over V name) (addr : Nat) {byte : Term} (hbyte : byte.Over V) :
    (s.setByte addr byte).Over V name :=
  { h with
    bytes := fun other => by
      rw [byteAt_setByte]
      split
      · exact hbyte
      · exact h.bytes other }

theorem setBytes (h : s.Over V name) (hbytes : ∀ t ∈ bytes, t.Over V) (addr : Nat) :
    (s.setBytes addr bytes).Over V name := by
  induction bytes generalizing s addr with
  | nil => exact h
  | cons byte bytes ih =>
    obtain ⟨hbyte, hbytes⟩ := List.forall_mem_cons.1 hbytes
    exact ih (h.setByte addr hbyte) hbytes _

theorem of_storeConcrete (h : s.Over V name) (hvalue : value.Over V)
    (hstore : s.storeConcrete addr value = .ok s') : s'.Over V name := by
  obtain ⟨bytes, hbytes, hstore⟩ := bind_eq_ok_iff.1 hstore
  cases hstore
  exact h.setBytes ((FoldClosed.over V).of_toBytes hbytes hvalue) addr

theorem of_store (h : s.Over V name) (hvalue : value.Over V)
    (hstore : s.store place value = .ok s') : s'.Over V name := by
  unfold store at hstore
  split at hstore
  · exact h.of_storeConcrete hvalue (Failure.ofFault_eq_ok_iff.1 hstore)
  · cases hstore

theorem of_loadConcrete (h : s.Over V name) (hload : s.loadConcrete addr width = .ok t) :
    t.Over V :=
  (FoldClosed.over V).of_loadConcrete h.bytes hload

/-- A load reads bytes of the store, or is a variable. -/
theorem of_load (h : s.Over V name) (hload : s.load place width known = .ok t) : t.Over V :=
  (FoldClosed.over V).of_load h.bytes (over_var_iff.2 (h.loads place width)) hload

theorem of_read? (h : s.Over V name) {a : Access} (hread : s.read? a = some t) : t.Over V := by
  cases a with
  | storeBytes | storeConcrete | store => cases hread
  | loadConcrete addr width => exact h.of_loadConcrete (toOption_eq_some_iff.1 hread)
  | load addr width known => exact h.of_load (toOption_eq_some_iff.1 hread)

theorem access (h : s.Over V name) {a : Access} (ha : ∀ t ∈ a.terms, t.Over V) :
    (s.access a).Over V name := by
  cases a with
  | loadConcrete | load => exact h
  | storeBytes addr data =>
    exact h.setBytes (List.forall_mem_map.2 fun b _ => Fold.over_lit _ _) _
  | storeConcrete addr value =>
    have hvalue : value.Over V := ha value List.mem_cons_self
    cases hstore : s.storeConcrete addr.toNat value with
    | error => rwa [ByteStore.access, hstore]
    | ok s' =>
      rw [ByteStore.access, hstore]
      exact h.of_storeConcrete hvalue hstore
  | store place value =>
    have hvalue : value.Over V := ha value (List.mem_cons_of_mem _ List.mem_cons_self)
    cases hstore : s.store place value with
    | error => rwa [ByteStore.access, hstore]
    | ok s' =>
      rw [ByteStore.access, hstore]
      exact h.of_store hvalue hstore

end Over

end ByteStore

/-! ## Choices -/

/-- The test of a choice, and what the choice relies on. -/
theorem FoldClosed.of_choice (K : FoldClosed) {cond : Term} {ts us : List Term}
    (hcond : K.word cond) (hts : ∀ t ∈ ts, K.truth t) (hus : ∀ u ∈ us, K.truth u) :
    K.truth (PathState.zeroTest cond) ∧ K.truth (PathState.muxNeed cond ts us) := by
  have htest : K.truth (PathState.zeroTest cond) := K.compare .eq hcond (K.lit _ _)
  have hfirst := K.conj (List.forall_mem_cons.2 ⟨htest, hts⟩)
  have hsecond := K.conj (List.forall_mem_cons.2 ⟨K.not htest, hus⟩)
  exact ⟨htest, K.disj (List.forall_mem_cons.2 ⟨hfirst, List.forall_mem_singleton.2 hsecond⟩)⟩

/-! ## Path states -/

/-- The bytes and the length of a record are over a set. -/
structure WriteRecord.Over (V : Set (String × Nat)) (r : WriteRecord) : Prop where
  data : ∀ t ∈ r.data, t.Over V
  length : r.length.Over V

/-- A lifted value, and what it relies on, are over a set. -/
structure Lifted.Over (V : Set (String × Nat)) (v : Lifted) : Prop where
  value : v.value.Over V
  needs : ∀ t ∈ v.needs, t.Over V

namespace PathState

open IR (Expr Op Ty)

/-- Every term of a path state is over a set, and so is all that is read from
its stores. -/
structure Over (V : Set (String × Nat)) (s : PathState) : Prop where
  registers : s.registers.Over V "reg"
  memory : s.memory.Over V "mem"
  temps : ∀ {tmp value}, s.temp? tmp = some value → value.Over V
  constraints : ∀ t ∈ s.constraints, t.Over V
  writes : ∀ fd, ∀ r ∈ s.channels.writes fd, r.Over V

variable {policy : ArgumentPolicy} {s s' : PathState} {e : Expr} {v : Lifted}

theorem over_start {guest : Guest}
    (hregisters : (start guest).registers.names ⊆ V) (hmemory : (start guest).memory.names ⊆ V) :
    (start guest).Over V where
  registers := ByteStore.over_empty hregisters
  memory := ByteStore.over_empty hmemory
  temps h := by simp [start, temp?] at h
  constraints := List.forall_mem_nil _
  writes fd := by simp [start, Channels.writes]

namespace Over

theorem bindTemp (h : s.Over V) (tmp : Nat) {value : Term} (hvalue : value.Over V) :
    (s.bindTemp tmp value).Over V :=
  { h with
    temps := fun {other bound} hbound => by
      rw [temp?_bindTemp] at hbound
      split at hbound
      · exact Option.some.inj hbound ▸ hvalue
      · exact h.temps hbound }

theorem clearTemps (h : s.Over V) : s.clearTemps.Over V :=
  { h with temps := fun hbound => by simp [PathState.clearTemps, temp?] at hbound }

theorem addConstraints (h : s.Over V) {more : List Term} (hmore : ∀ t ∈ more, t.Over V) :
    (s.addConstraints more).Over V :=
  { h with
    constraints := List.forall_mem_append.2
      ⟨h.constraints, fun t ht => hmore t (List.mem_filter.1 ht).1⟩ }

theorem append (h : s.Over V) (fd : Nat) {r : WriteRecord} (hr : r.Over V) :
    { s with channels := s.channels.append fd r }.Over V :=
  { h with
    writes := fun other => by
      rw [Channels.writes_append]
      split
      · exact List.forall_mem_append.2 ⟨h.writes fd, List.forall_mem_singleton.2 hr⟩
      · exact h.writes other }

theorem setReturn (h : s.Over V) (cc : Convention) {value : Term} (hvalue : value.Over V)
    (hreturn : cc.setReturn s value = .ok s') : s'.Over V := by
  rw [cc.setReturn_eq] at hreturn
  cases hreturn
  have hbytes := (FoldClosed.over V).toBytes s.registers.order
    ((FoldClosed.over V).resize cc.wordBits hvalue)
  exact { h with registers := h.registers.setBytes hbytes _ }

/-! ## Lifted values -/

theorem over_map_value {vals : List Lifted} (hvals : ∀ u ∈ vals, u.Over V) :
    ∀ t ∈ vals.map (·.value), t.Over V :=
  List.forall_mem_map.2 fun u hu => (hvals u hu).value

theorem of_liftOp {op : Op} {vals : List Lifted} (hvals : ∀ u ∈ vals, u.Over V)
    (hop : liftOp op vals = .ok v) : v.Over V := by
  obtain ⟨happly, hneeds⟩ := PathState.of_liftOp hop
  refine ⟨(FoldClosed.over V).of_apply (over_map_value hvals) happly, ?_⟩
  rw [hneeds]
  exact List.forall_mem_flatMap.2 fun u hu => (hvals u hu).needs

theorem of_liftCall {callee : String} {retTy : Ty} {vals : List Lifted}
    (hvals : ∀ u ∈ vals, u.Over V) (hcall : liftCall policy callee retTy vals = .ok v) :
    v.Over V := by
  obtain ⟨helper, value, needs, -, hhelper, hvalue, hneeds⟩ := PathState.of_liftCall hcall
  obtain ⟨hword, hopNeeds⟩ := (FoldClosed.over V).of_call (over_map_value hvals) hhelper
  refine ⟨hvalue ▸ (FoldClosed.over V).resize retTy.width hword, ?_⟩
  rw [hneeds]
  refine List.forall_mem_append.2 ⟨fun t ht => ?_, hopNeeds⟩
  obtain ⟨u, hu, hneed⟩ := mem_keptNeeds ht
  exact (hvals u hu).needs t hneed

theorem of_liftMux {cond : Term} {v0 vX : Lifted} (hcond : cond.Over V) (hzero : v0.Over V)
    (hother : vX.Over V) (hmux : liftMux cond v0 vX = .ok v) : v.Over V := by
  obtain ⟨-, hvalue, hneeds⟩ := PathState.of_liftMux hmux
  obtain ⟨htest, hneed⟩ := (FoldClosed.over V).of_choice hcond hzero.needs hother.needs
  refine ⟨hvalue ▸ (FoldClosed.over V).ite htest hzero.value hother.value, ?_⟩
  rw [hneeds]
  exact List.forall_mem_singleton.2 hneed

theorem of_lifts (hs : s.Over V) (h : Lifts policy s e v) : v.Over V := by
  induction h with
  | get h =>
    obtain ⟨value, hload, h⟩ := bind_eq_ok_iff.1 h
    cases h
    exact ⟨hs.registers.of_load hload, List.forall_mem_nil _⟩
  | rdTmp h => exact ⟨hs.temps h, List.forall_mem_nil _⟩
  | const literal => exact ⟨over_const _ _, List.forall_mem_nil _⟩
  | op _ hlength _ h ih =>
    refine of_liftOp (fun u hu => ?_) h
    obtain ⟨a, hmem⟩ := exists_zip_of_mem_right hlength hu
    exact ih hmem
  | load _ h ih =>
    obtain ⟨raw, hload, h⟩ := bind_eq_ok_iff.1 h
    obtain ⟨value, hfix, h⟩ := fault_bind_eq_ok_iff.1 h
    cases h
    exact ⟨(FoldClosed.over V).of_fixOrder hfix (hs.memory.of_load hload), ih.needs⟩
  | ccall hlength _ h ih =>
    refine of_liftCall (fun u hu => ?_) h
    obtain ⟨a, hmem⟩ := exists_zip_of_mem_right hlength hu
    exact ih hmem
  | mux0X _ _ _ h ihCond ihZero ihOther => exact of_liftMux ihCond.value ihZero ihOther h

/-- A lifted value has the variables of the state. -/
theorem lift (hs : s.Over V) (h : s.lift policy e = .ok v) : v.Over V :=
  hs.of_lifts (lifts_of_lift h)

end Over

end PathState

/-! ## Executions -/

namespace Execution

variable {α β : Type} {x : Execution α} {f : α → Execution β} {P : α → Prop} {Q : β → Prop}

/-- An execution keeps the terms of a state over a set, whether it succeeds
or fails.  If it succeeds, its result has a property. -/
def Keeps (V : Set (String × Nat)) (x : Execution α) (P : α → Prop) : Prop :=
  ∀ s, s.Over V → (x.runOn s).2.Over V ∧ ∀ a, (x.runOn s).1 = .ok a → P a

namespace Keeps

theorem pure {a : α} (h : P a) : Keeps V (Pure.pure a) P := by
  intro s hs
  refine ⟨hs, ?_⟩
  rintro _ ⟨⟩
  exact h

theorem throw (cause : Failure) : Keeps V (MonadExcept.throw cause) P :=
  fun _ hs => ⟨hs, nofun⟩

theorem get : Keeps V MonadState.get (PathState.Over V) := by
  intro s hs
  refine ⟨hs, ?_⟩
  rintro _ ⟨⟩
  exact hs

theorem read {g : PathState → Except Failure α} (h : ∀ s a, s.Over V → g s = .ok a → P a) :
    Keeps V (Summary.read g) P := by
  intro s hs
  rw [runOn_read]
  exact ⟨hs, fun a ha => h s a hs ha⟩

theorem update {g : PathState → Except Failure PathState}
    (h : ∀ s s', s.Over V → g s = .ok s' → s'.Over V) :
    Keeps V (Summary.update g) fun _ => True := by
  intro s hs
  refine ⟨?_, fun _ _ => trivial⟩
  rw [runOn_update]
  split
  · rename_i s' hg
    exact h s s' hs hg
  · exact hs

theorem mono {P' : α → Prop} (hx : Keeps V x P) (h : ∀ a, P a → P' a) : Keeps V x P' :=
  fun s hs => ⟨(hx s hs).1, fun a ha => h a ((hx s hs).2 a ha)⟩

theorem bind (hx : Keeps V x P) (hf : ∀ a, P a → Keeps V (f a) Q) : Keeps V (x >>= f) Q := by
  intro s hs
  obtain ⟨hkept, hresult⟩ := hx s hs
  rw [runOn_bind]
  split
  · rename_i a s' hrun
    rw [hrun] at hkept hresult
    exact hf a (hresult a rfl) s' hkept
  · rename_i cause s' hrun
    rw [hrun] at hkept
    exact ⟨hkept, nofun⟩

end Keeps

end Execution

/-! ## Summaries -/

/-- A returned value is over a set. -/
def ReturnValue.Over (V : Set (String × Nat)) (r : ReturnValue) : Prop :=
  ∀ value, r = some value → value.Over V

namespace Summary

open Execution Strlen

variable {config : Config} {fd buffer count string char length : Term} {data args : List Term}

theorem over_byteOf {s : PathState} (hs : s.Over V) {index : Nat} {t : Term}
    (h : byteOf s string index = .ok t) : t.Over V := by
  obtain ⟨addr, -, hload⟩ := fault_bind_eq_ok_iff.1 h
  exact hs.memory.of_load hload

theorem over_firstEnd {word : Nat → Term} {bytes : List Term} (hword : ∀ n, (word n).Over V)
    (hbytes : ∀ t ∈ bytes, t.Over V) : (firstEnd word bytes).Over V :=
  firstEnd_induction (P := Term.Over V) hword fun t ht index _ hrest =>
    Fold.over_ite (Fold.over_compare .eq (hbytes t ht) (Fold.over_lit 0 8)) (hword index) hrest

theorem keeps_record (hdata : ∀ t ∈ data, t.Over V) (hlength : length.Over V) :
    Keeps V (record fd data length) fun _ => True := by
  refine .update fun s s' hs h => ?_
  obtain ⟨channels, hwrite, h⟩ := bind_eq_ok_iff.1 h
  cases h
  unfold Channels.write at hwrite
  split at hwrite
  · cases hwrite
    exact hs.append _ ⟨hdata, hlength⟩
  · cases hwrite

/-- The length of a string is a choice among numbers, by bytes of the
memory. -/
theorem keeps_run :
    Keeps V (Strlen.run config string) fun r => ∃ length, r = some length ∧ length.Over V := by
  intro s hs
  cases hscan : scan config s string with
  | error cause =>
    rw [runOn_run_of_error hscan]
    refine ⟨hs, ?_⟩
    rintro _ ⟨⟩
  | ok found =>
    have hbytes := forall_mem_scanFrom (P := Term.Over V) (fun _ _ => over_byteOf hs)
      (List.forall_mem_nil _) hscan
    have hlength : (firstEnd s.guest.word found.bytes).Over V :=
      over_firstEnd (fun _ => Fold.over_lit _ _) hbytes
    have hends : ∀ t ∈ found.bytes.map isEnd, t.Over V :=
      List.forall_mem_map.2 fun t ht => Fold.over_compare .eq (hbytes t ht) (Fold.over_lit 0 8)
    rw [runOn_run hscan]
    split
    · split
      · refine ⟨hs, ?_⟩
        rintro _ ⟨⟩
      · refine ⟨hs.addConstraints (List.forall_mem_singleton.2 (Fold.over_disj hends)), ?_⟩
        rintro _ ⟨⟩
        exact ⟨_, rfl, hlength⟩
    · refine ⟨hs, ?_⟩
      rintro _ ⟨⟩
      exact ⟨_, rfl, hlength⟩

theorem keeps_writeBuffer (hcount : count.Over V) :
    Keeps V (writeBuffer config fd buffer count) (ReturnValue.Over V) := by
  refine .bind (P := fun _ => True) (.read fun _ _ _ _ => trivial) fun available _ => ?_
  refine .bind (P := fun data => ∀ t ∈ data, t.Over V) (.read fun s data hs hdata t ht => ?_)
    fun data hdata => .bind (keeps_record hdata hcount) fun _ _ => .pure nofun
  obtain ⟨i, -, hread⟩ := exists_of_mem_mapM hdata ht
  exact over_byteOf hs hread

theorem keeps_writeChar (hchar : char.Over V) :
    Keeps V (writeChar char) (ReturnValue.Over V) := by
  refine .bind (P := Term.Over V) (.read fun _ byte _ hbyte => ?_) fun byte hbyte =>
    .bind .get fun s _ => .bind (keeps_record (List.forall_mem_singleton.2 hbyte)
      (Fold.over_lit _ _)) fun _ _ => .pure ?_
  · exact (FoldClosed.over V).of_extract (Failure.ofFault_eq_ok_iff.1 hbyte) hchar
  · rintro _ ⟨⟩
    exact hchar

theorem keeps_writeLine : Keeps V (writeLine config string) (ReturnValue.Over V) := by
  refine .bind .get fun s _ => .bind keeps_run fun result hresult => ?_
  obtain ⟨length, rfl, hlength⟩ := hresult
  -- The length is known, so no variable stands in for it.
  refine .bind (P := fun t => t = length) (.read fun _ _ _ h => (Except.ok.inj h).symm) ?_
  rintro _ rfl
  exact .bind (keeps_writeBuffer hlength) fun _ _ =>
    .bind (keeps_record (List.forall_mem_singleton.2 (Fold.over_lit _ _)) (Fold.over_lit _ _))
      fun _ _ => .pure nofun

end Summary

namespace Convention

variable {cc : Convention} {s : PathState} {t : Term} {args : List Term}

theorem over_slot (hs : s.Over V) {index : Nat} (h : cc.slot s index = .ok t) : t.Over V := by
  unfold slot at h
  split at h
  · exact hs.registers.of_load h
  · obtain ⟨top, -, h⟩ := bind_eq_ok_iff.1 h
    obtain ⟨addr, -, h⟩ := fault_bind_eq_ok_iff.1 h
    obtain ⟨raw, hload, hfix⟩ := bind_eq_ok_iff.1 h
    exact (FoldClosed.over V).of_fixOrder (Failure.ofFault_eq_ok_iff.1 hfix)
      (hs.memory.of_load hload)

theorem over_argumentsFrom (hs : s.Over V) {index : Nat} {tys : List CType}
    (h : cc.argumentsFrom s index tys = .ok args) : ∀ t ∈ args, t.Over V := by
  induction tys generalizing index args with
  | nil =>
    cases h
    exact List.forall_mem_nil _
  | cons ty tys ih =>
    obtain ⟨word, hslot, h⟩ := bind_eq_ok_iff.1 h
    obtain ⟨arg, hresize, h⟩ := fault_bind_eq_ok_iff.1 h
    obtain ⟨rest, hrest, h⟩ := bind_eq_ok_iff.1 h
    cases h
    exact List.forall_mem_cons.2
      ⟨(FoldClosed.over V).of_resize hresize (over_slot hs hslot), ih hrest⟩

end Convention

namespace BuiltIn

open Execution

variable {config : Config} {b : BuiltIn} {args : List Term}

theorem keeps_body (hargs : ∀ t ∈ args, t.Over V) :
    Keeps V (b.summary.body config args) (ReturnValue.Over V) := by
  cases b with
  | strlen =>
    simp only [summary, Summary.strlen]
    split
    · refine Summary.keeps_run.mono ?_
      rintro _ ⟨length, rfl, hlength⟩ _ ⟨⟩
      exact hlength
    · exact .throw _
  | puts =>
    simp only [summary, Summary.puts]
    split
    · exact Summary.keeps_writeLine
    · exact .throw _
  | putchar =>
    simp only [summary, Summary.putchar]
    split
    · exact Summary.keeps_writeChar (hargs _ List.mem_cons_self)
    · exact .throw _
  | write =>
    simp only [summary, Summary.write]
    split
    · exact Summary.keeps_writeBuffer
        (hargs _ (List.mem_cons_of_mem _ (List.mem_cons_of_mem _ List.mem_cons_self)))
    · exact .throw _

/-- A call on given arguments. -/
theorem keeps_inlineCall (hargs : ∀ t ∈ args, t.Over V) :
    Keeps V (b.summary.inlineCall config args) (ReturnValue.Over V) := by
  unfold Summary.inlineCall
  split
  · exact keeps_body hargs
  · exact .throw _

/-- A call as the guest makes it. -/
theorem keeps_invoke (cc : Convention) :
    Keeps V (b.summary.invoke config cc) (ReturnValue.Over V) := by
  have harguments : Keeps V (Summary.read (cc.arguments b.summary.name b.summary.signature))
      fun args => ∀ t ∈ args, t.Over V := by
    refine .read fun s args hs h => ?_
    obtain ⟨_, -, hread⟩ := bind_eq_ok_iff.1 h
    exact Convention.over_argumentsFrom hs hread
  refine .bind harguments fun args hargs => .bind (keeps_body hargs) fun result hresult => ?_
  cases result with
  | none => exact .pure hresult
  | some value =>
    dsimp only
    rw [if_pos b.ret_ne_void]
    exact .bind (.update fun s s' hs h => hs.setReturn cc (hresult value rfl) h)
      fun _ _ => .pure hresult

end BuiltIn

end SymLift
