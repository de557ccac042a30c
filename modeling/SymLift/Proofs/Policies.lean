import SymLift.Proofs.Reduced
import SymLift.Proofs.Typing

/-!
# The policy on arguments decides about side conditions only

Two runs of `lift` on one tree, one that keeps the side conditions of the
first argument of a call and one that keeps those of all, go side by side.
The tree need not be well typed.

A load looks at the side conditions of its address, and a choice joins those
of its arms.  So the runs could part where a side condition pins an address
or is a known falsehood.  `Inert` says that it does neither.

* `isModeled_inert`, `inert_codeConstraints` and `inert_muxNeed`: whatever
  lifting adds to the side conditions is inert.
* `load_of_inert` and `liftMux_of_inert`: a load and a choice do not see
  inert side conditions.
* `Weaker` compares side conditions under every model.  It passes through the
  disjunction of a choice by `weaker_muxNeed`.
* `inert_of_lift`: so all side conditions of a lifted tree are inert.
* `lift_first_alike_all` puts them together: equal failures or equal values,
  and weaker side conditions.
-/

namespace SymLift

open Term

/-! ## Inert side conditions -/

/-- A boolean that pins no address and is not known to be false. -/
structure Term.Inert (t : Term) : Prop where
  isBool : t.isBool = true
  ne_false : t ≠ .bool false
  pinnedBy?_eq : ∀ addr, ByteStore.pinnedBy? addr t = none

variable {t cond : Term} {ts us terms : List Term} {m : Model}

theorem inert_bool_true : (Term.bool true).Inert := ⟨rfl, nofun, fun _ => rfl⟩

theorem inert_conj_node : (Term.conj terms).Inert := ⟨rfl, nofun, fun _ => rfl⟩

theorem inert_disj_node : (Term.disj terms).Inert := ⟨rfl, nofun, fun _ => rfl⟩

/-- An order between two terms is no equation. -/
theorem inert_ult {left right : Term} : (Term.compare .ult left right).Inert :=
  ⟨rfl, nofun, fun _ => rfl⟩

namespace Fold

variable {neutral : Bool} {node : List Term → Term} {left right : Term}

/-! ### Connectives of terms that are no constants -/

theorem remaining_of_boolValue? (h : ∀ t ∈ terms, t.boolValue? = none) :
    remaining neutral terms = some terms := by
  refine remaining_eq_some_iff.2 ⟨fun hmem => ?_, List.filter_eq_self.2 fun t ht => ?_⟩
  · cases h _ hmem
  · exact Option.isNone_iff_eq_none.2 (h t ht)

/-- A connective of inert terms one of which is no constant is no constant. -/
theorem boolValue?_conj_cons (ht : t.boolValue? = none) (h : ∀ u ∈ ts, u ≠ .bool false) :
    (conj (t :: ts)).boolValue? = none := by
  unfold conj connect
  split
  · rename_i hfalse
    rcases List.mem_cons.1 (remaining_eq_none_iff.1 hfalse) with rfl | hmem
    · cases ht
    · exact absurd rfl (h _ hmem)
  · rename_i hnone
    cases (mem_remaining_iff hnone).2 ⟨List.mem_cons_self, ht⟩
  · rename_i kept hkept
    exact ((mem_remaining_iff hkept).1 List.mem_cons_self).2
  · rfl

theorem inert_conj (h : ∀ t ∈ terms, t.Inert) : (conj terms).Inert :=
  connect_induction inert_bool_true h fun _ _ => inert_conj_node

/-- A disjunction of two terms or more that are no constants is a node. -/
theorem inert_disj (h : ∀ t ∈ left :: right :: terms, t.boolValue? = none) :
    (disj (left :: right :: terms)).Inert := by
  rw [disj, connect, remaining_of_boolValue? h]
  exact inert_disj_node

theorem isBool_conj (h : ∀ t ∈ terms, t.isBool = true) : (conj terms).isBool = true :=
  connect_induction (P := fun t => t.isBool = true) rfl h fun _ _ => rfl

theorem disj_false_right (t : Term) : disj [t, .bool false] = t := by
  cases t with
  | bool value => cases value <;> rfl
  | _ => rfl

theorem disj_false_left (t : Term) : disj [.bool false, t] = t := by
  cases t with
  | bool value => cases value <;> rfl
  | _ => rfl

end Fold

open Fold

/-! ### What helper calls and choices rely on -/

namespace Helper

variable {h : Helper} {ccOp code value : Term} {needs args : List Term}
  {f : ThunkOp → Nat → Term}

theorem isModeled_inert {g : Guest} (hop : ccOp.constValue? = none) :
    (g.isModeled ccOp).Inert := by
  have hopen (op : Nat) : (isThunkOp ccOp op).boolValue? = none := by
    rw [isThunkOp, compare_of_constValue? .eq hop rfl]
    rfl
  obtain ⟨last, rest, hrest⟩ : ∃ last rest,
      (List.range' 1 (g.modeledOps - 1)).reverse = last :: rest := by
    cases g <;> exact ⟨_, _, rfl⟩
  rw [Guest.isModeled, hrest, List.map_cons]
  refine inert_disj fun t ht => ?_
  rw [← List.map_cons, ← List.map_cons] at ht
  obtain ⟨op, -, rfl⟩ := List.mem_map.1 ht
  exact hopen op

theorem inert_overThunkOp (hword : ccOp.width = h.guest.wordBits) (hred : ccOp.Reduced)
    (hcall : h.overThunkOp ccOp f = .ok (value, needs)) : ∀ t ∈ needs, t.Inert := by
  unfold overThunkOp at hcall
  split at hcall
  · split at hcall
    · cases hcall
      exact List.forall_mem_nil _
    · cases hcall
  · rename_i hnone
    have hop := hred.constValue?_eq_none (hword ▸ (wordBits_bounds _).2) hnone
    cases hcall
    exact List.forall_mem_singleton.2 (isModeled_inert hop)

theorem inert_codeConstraints : ∀ t ∈ codeConstraints code, t.Inert := by
  unfold codeConstraints
  split
  · exact List.forall_mem_nil _
  · rename_i hopen
    have hcode : code.constValue? = none := by
      cases code with
      | const => exact absurd rfl hopen
      | _ => rfl
    rw [compare_of_constValue? .ult hcode rfl]
    exact List.forall_mem_singleton.2 inert_ult

/-- The side conditions of a call are inert if constants among its arguments
are reduced. -/
theorem inert_call (hargs : ∀ a ∈ args, a.Reduced) (hcall : h.call args = .ok (value, needs)) :
    ∀ t ∈ needs, t.Inert := by
  have hwords : ∀ a ∈ args.map (resize h.guest.wordBits),
      a.width = h.guest.wordBits ∧ a.Reduced := by
    intro a ha
    obtain ⟨arg, harg, rfl⟩ := List.mem_map.1 ha
    exact ⟨width_resize h.guest.wordBits_pos, FoldClosed.reduced.resize _ (hargs arg harg)⟩
  rw [call_eq] at hcall
  rcases callWords_cases hcall with
    ⟨code, ccOp, dep1, dep2, ndep, cond, opNeeds, -, hwordsEq, hop, -, rfl⟩ |
    ⟨ccOp, dep1, dep2, ndep, -, hwordsEq, hop⟩ | ⟨ccOp, dep1, dep2, ndep, -, hwordsEq, hop⟩
  · rw [hwordsEq] at hwords
    obtain ⟨hword, hred⟩ := hwords ccOp (List.mem_cons_of_mem _ List.mem_cons_self)
    exact List.forall_mem_append.2 ⟨inert_overThunkOp hword hred hop, inert_codeConstraints⟩
  · rw [hwordsEq] at hwords
    obtain ⟨hword, hred⟩ := hwords ccOp List.mem_cons_self
    exact inert_overThunkOp hword hred hop
  · rw [hwordsEq] at hwords
    obtain ⟨hword, hred⟩ := hwords ccOp List.mem_cons_self
    exact inert_overThunkOp hword hred hop

end Helper

namespace PathState

open IR (Expr Op Ty)

/-- The test for zero is known, or compares the condition with zero. -/
theorem zeroTest_cases (cond : Term) : (∃ b, zeroTest cond = .bool b) ∨
    zeroTest cond = .compare .eq cond (lit 0 cond.width) := by
  unfold zeroTest Fold.compare
  split
  · exact .inl ⟨_, rfl⟩
  · split
    · exact .inl ⟨_, rfl⟩
    · exact .inr rfl

/-- A choice whose condition is known relies on what the arm that it takes
relies on. -/
theorem muxNeed_of_known {b : Bool} (h : zeroTest cond = .bool b) :
    muxNeed cond ts us = Fold.conj (if b then ts else us) := by
  rw [muxNeed, h]
  cases b with
  | true => exact disj_false_right _
  | false => exact disj_false_left _

theorem inert_muxNeed (hts : ∀ t ∈ ts, t.Inert) (hus : ∀ u ∈ us, u.Inert) :
    (muxNeed cond ts us).Inert := by
  rcases zeroTest_cases cond with ⟨b, htest⟩ | htest
  · rw [muxNeed_of_known htest]
    cases b with
    | true => exact inert_conj hts
    | false => exact inert_conj hus
  · -- Both conjunctions have the test in them, so neither is a constant.
    rw [muxNeed, htest]
    refine inert_disj fun t ht => ?_
    rcases List.mem_cons.1 ht with rfl | ht
    · exact boolValue?_conj_cons rfl fun t ht => (hts t ht).ne_false
    · obtain rfl := List.mem_singleton.1 ht
      exact boolValue?_conj_cons rfl fun u hu => (hus u hu).ne_false

/-! ### What does not see inert side conditions -/

theorem resolveAddress?_append (addr : Term) (known : List Term) (h : ∀ t ∈ ts, t.Inert) :
    ByteStore.resolveAddress? addr (known ++ ts) = ByteStore.resolveAddress? addr known := by
  have hnone : ts.findSome? (ByteStore.pinnedBy? addr) = none :=
    List.findSome?_eq_none_iff.2 fun t ht => (h t ht).pinnedBy?_eq addr
  rw [ByteStore.resolveAddress?, ByteStore.resolveAddress?, List.findSome?_append, hnone,
    Option.or_none]

theorem load_of_inert (store : ByteStore) (addr : Term) (width : Nat) (known : List Term)
    (h : ∀ t ∈ ts, t.Inert) :
    store.load addr width (known ++ ts) = store.load addr width known := by
  rw [ByteStore.load, ByteStore.load, resolveAddress?_append addr known h]

/-- The connectives of a choice are applied to booleans. -/
theorem liftMux_of_inert {l0 lX : Lifted} (h0 : ∀ t ∈ l0.needs, t.Inert)
    (hX : ∀ t ∈ lX.needs, t.Inert) :
    liftMux cond l0 lX = (do
      let isZero ← Build.compare .eq cond (← Build.lit 0 cond.width)
      let value ← Build.ite isZero l0.value lX.value
      .ok { value, needs := [muxNeed cond l0.needs lX.needs] }) := by
  unfold liftMux
  cases hlit : Build.lit 0 cond.width with
  | error cause => rfl
  | ok zero =>
    obtain ⟨-, rfl⟩ := Build.of_lit hlit
    rw [fault_ok_bind, fault_ok_bind]
    cases htest : Build.compare .eq cond (lit 0 cond.width) with
    | error cause => rfl
    | ok isZero =>
      obtain ⟨-, rfl⟩ := Build.of_compare htest
      have htestBool : (zeroTest cond).isBool = true := isBool_of_sort (sort_compare .eq)
      have hnotBool : (Fold.not (zeroTest cond)).isBool = true := by
        rcases zeroTest_cases cond with ⟨b, hknown⟩ | hopen
        · rw [hknown]
          rfl
        · rw [hopen]
          rfl
      have hzero : ∀ t ∈ zeroTest cond :: l0.needs, t.isBool = true :=
        List.forall_mem_cons.2 ⟨htestBool, fun t ht => (h0 t ht).isBool⟩
      have hother : ∀ t ∈ Fold.not (zeroTest cond) :: lX.needs, t.isBool = true :=
        List.forall_mem_cons.2 ⟨hnotBool, fun t ht => (hX t ht).isBool⟩
      have hboth : ∀ t ∈ [Fold.conj (zeroTest cond :: l0.needs),
          Fold.conj (Fold.not (zeroTest cond) :: lX.needs)], t.isBool = true :=
        List.forall_mem_cons.2 ⟨isBool_conj hzero, List.forall_mem_singleton.2 (isBool_conj hother)⟩
      change (liftM (Except.ok (zeroTest cond) : Except Fault Term) >>= _) =
        (liftM (Except.ok (zeroTest cond) : Except Fault Term) >>= _)
      rw [fault_ok_bind, fault_ok_bind, Build.not_ok htestBool, fault_ok_bind, Build.conj_ok hzero,
        fault_ok_bind, Build.conj_ok hother, fault_ok_bind, Build.disj_ok hboth, fault_ok_bind]
      rfl

end PathState

/-! ## Weaker side conditions -/

/-- Under every model some side conditions have truths, or are true, if
others do. -/
structure Weaker (ts us : List Term) : Prop where
  truths : ∀ {m : Model}, (∀ u ∈ us, ∃ b, u.Decides m b) → ∀ t ∈ ts, ∃ b, t.Decides m b
  holds : ∀ {m : Model}, (∀ u ∈ us, u.Decides m true) → ∀ t ∈ ts, t.Decides m true

namespace Weaker

variable {ts' us' : List Term}

theorem refl (ts : List Term) : Weaker ts ts := ⟨id, id⟩

theorem nil (us : List Term) : Weaker [] us :=
  ⟨fun _ => List.forall_mem_nil _, fun _ => List.forall_mem_nil _⟩

theorem append (h : Weaker ts us) (h' : Weaker ts' us') : Weaker (ts ++ ts') (us ++ us') where
  truths hall := by
    obtain ⟨hus, hus'⟩ := List.forall_mem_append.1 hall
    exact List.forall_mem_append.2 ⟨h.truths hus, h'.truths hus'⟩
  holds hall := by
    obtain ⟨hus, hus'⟩ := List.forall_mem_append.1 hall
    exact List.forall_mem_append.2 ⟨h.holds hus, h'.holds hus'⟩

end Weaker

namespace Fold

/-- A connective that has a truth gives one to each of its terms, unless one
of them decides it as a constant. -/
theorem truths_of_connect {neutral b : Bool} {node : List Term → Term}
    (hnode : Connects neutral node) (hne : ∀ t ∈ terms, t ≠ .bool (!neutral))
    (h : (connect neutral node terms).Decides m b) : ∀ t ∈ terms, ∃ c, t.Decides m c := by
  have hkeep {kept : List Term} (hkept : remaining neutral terms = some kept)
      (htruths : ∀ t ∈ kept, ∃ c, t.Decides m c) : ∀ t ∈ terms, ∃ c, t.Decides m c := by
    intro t ht
    rcases mem_or_neutral_of_remaining hkept t ht with hmem | rfl
    · exact htruths t hmem
    · exact ⟨neutral, decides_bool neutral⟩
  unfold connect at h
  split at h
  · rename_i hnone
    exact absurd rfl (hne _ (remaining_eq_none_iff.1 hnone))
  · rename_i hkept
    exact hkeep hkept (List.forall_mem_nil _)
  · rename_i u hkept
    exact hkeep hkept (List.forall_mem_singleton.2 ⟨b, h⟩)
  · rename_i kept _ _ hkept
    obtain ⟨truths, htruths, -⟩ := (hnode m kept b).1 h
    refine hkeep hkept fun t ht => ?_
    obtain ⟨i, hi, rfl⟩ := List.mem_iff_getElem.1 ht
    exact ⟨_, htruths.get hi (htruths.length_eq ▸ hi)⟩

end Fold

namespace PathState

open IR (Expr Op Ty)

/-- A choice whose condition is not known has a truth only if both of its
arms do. -/
theorem truths_of_muxNeed {b : Bool} (htest : zeroTest cond = .compare .eq cond (lit 0 cond.width))
    (hts : ∀ t ∈ ts, t.Inert) (hus : ∀ u ∈ us, u.Inert) (h : (muxNeed cond ts us).Decides m b) :
    (∃ c, (zeroTest cond).Decides m c) ∧ (∀ t ∈ ts, ∃ c, t.Decides m c) ∧
      ∀ u ∈ us, ∃ c, u.Decides m c := by
  have hzero : (zeroTest cond).boolValue? = none := htest ▸ rfl
  have hother : (Fold.not (zeroTest cond)).boolValue? = none := htest ▸ rfl
  have hopen {t : Term} {value : Bool} (ht : t.boolValue? = none) : t ≠ .bool value := by
    rintro rfl
    cases ht
  have hfirst := boolValue?_conj_cons hzero fun t ht => (hts t ht).ne_false
  have hsecond := boolValue?_conj_cons hother fun u hu => (hus u hu).ne_false
  obtain ⟨⟨f, hf⟩, hrest⟩ := List.forall_mem_cons.1 (truths_of_connect connects_disj
    (List.forall_mem_cons.2 ⟨hopen hfirst, List.forall_mem_singleton.2 (hopen hsecond)⟩) h)
  obtain ⟨g, hg⟩ := List.forall_mem_singleton.1 hrest
  obtain ⟨hcond, hts⟩ := List.forall_mem_cons.1 (truths_of_connect connects_conj
    (List.forall_mem_cons.2 ⟨hopen hzero, fun t ht => (hts t ht).ne_false⟩) hf)
  obtain ⟨-, hus⟩ := List.forall_mem_cons.1 (truths_of_connect connects_conj
    (List.forall_mem_cons.2 ⟨hopen hother, fun u hu => (hus u hu).ne_false⟩) hg)
  exact ⟨hcond, hts, hus⟩

theorem weaker_muxNeed {ts' us' : List Term} (h0 : Weaker ts ts') (hX : Weaker us us')
    (hts : ∀ t ∈ ts', t.Inert) (hus : ∀ u ∈ us', u.Inert) :
    Weaker [muxNeed cond ts us] [muxNeed cond ts' us'] := by
  rcases zeroTest_cases cond with ⟨b, hknown⟩ | hopen
  · -- Only the arm that is taken is left.
    have harm : Weaker (if b then ts else us) (if b then ts' else us') := by
      cases b with
      | true => exact h0
      | false => exact hX
    have hinert : ∀ t ∈ (if b then ts' else us'), t.Inert := by
      cases b with
      | true => exact hts
      | false => exact hus
    rw [muxNeed_of_known hknown, muxNeed_of_known hknown]
    constructor
    · intro m hall
      obtain ⟨c, hc⟩ := List.forall_mem_singleton.1 hall
      have htruths := truths_of_connect connects_conj (fun t ht => (hinert t ht).ne_false) hc
      exact List.forall_mem_singleton.2
        (exists_decides_connect connects_conj (harm.truths htruths))
    · intro m hall
      have hconj := List.forall_mem_singleton.1 hall
      have htrue := (decides_connect_neutral_iff connects_conj).1 hconj
      exact List.forall_mem_singleton.2
        ((decides_connect_neutral_iff connects_conj).2 (harm.holds htrue))
  · constructor
    · intro m hall
      obtain ⟨c, hc⟩ := List.forall_mem_singleton.1 hall
      obtain ⟨⟨b, hb⟩, htruths, hutruths⟩ := truths_of_muxNeed hopen hts hus hc
      obtain ⟨d, hd, -⟩ := exists_decides_muxNeed hb (h0.truths htruths) (hX.truths hutruths)
      exact List.forall_mem_singleton.2 ⟨d, hd⟩
    · intro m hall
      have htrue := List.forall_mem_singleton.1 hall
      obtain ⟨⟨b, hb⟩, htruths, hutruths⟩ := truths_of_muxNeed hopen hts hus htrue
      -- Both choices take the same arm.
      obtain ⟨c, hc, hiff⟩ := exists_decides_muxNeed hb htruths hutruths
      obtain ⟨d, hd, hiff'⟩ := exists_decides_muxNeed hb (h0.truths htruths) (hX.truths hutruths)
      have harm := hiff.1 (hc.unique htrue)
      have hd' : d = true := by
        refine hiff'.2 ?_
        cases b with
        | true => exact h0.holds harm
        | false => exact hX.holds harm
      exact List.forall_mem_singleton.2 (hd' ▸ hd)

/-! ## Two runs side by side -/

/-- Two lifted values are one value.  The first relies on less. -/
structure ReliesOnLess (l l' : Lifted) : Prop where
  value_eq : l.value = l'.value
  reduced : l.value.Reduced
  inert : ∀ t ∈ l.needs, t.Inert
  inert' : ∀ t ∈ l'.needs, t.Inert
  weaker : Weaker l.needs l'.needs

/-- A value that relies on nothing. -/
theorem reliesOnLess_of_value {value : Term} (h : value.Reduced) :
    ReliesOnLess ⟨value, []⟩ ⟨value, []⟩ :=
  ⟨rfl, h, List.forall_mem_nil _, List.forall_mem_nil _, .refl []⟩

variable {policy : ArgumentPolicy} {s : PathState} {l l' : Lifted} {args args' : List Lifted}

/-- The constants in a path state fit their widths, as a constructor makes
them.  Nothing is asked of sorts and widths. -/
structure ConstantsReduced (s : PathState) : Prop where
  registers : ∀ place, (s.registers.byteAt place).Reduced
  memory : ∀ place, (s.memory.byteAt place).Reduced
  temps : ∀ tmp t, s.temp? tmp = some t → t.Reduced

theorem HoldsBitVectors.constantsReduced (hs : s.HoldsBitVectors) : s.ConstantsReduced where
  registers := fun place => (hs.registers place).reduced
  memory := fun place => (hs.memory place).reduced
  temps := by
    intro tmp t h
    obtain ⟨w, hsort⟩ := hs.temps tmp t h
    exact hsort.reduced

theorem liftGet_alike (hs : s.ConstantsReduced) (offset : UInt64) (ty : Ty) :
    Alike ReliesOnLess (s.liftGet offset ty) (s.liftGet offset ty) :=
  .bind_same fun _ hload =>
    .ok (reliesOnLess_of_value (ByteStore.reduced_load hs.registers hload))

theorem liftLoad_alike (hs : s.ConstantsReduced) (order : ByteOrder) (ty : Ty)
    (h : ReliesOnLess l l') :
    Alike ReliesOnLess (s.liftLoad order ty l) (s.liftLoad order ty l') := by
  unfold liftLoad
  rw [← h.value_eq, load_of_inert _ _ _ _ h.inert, load_of_inert _ _ _ _ h.inert']
  refine .bind_same fun raw hload => .bind_same fun t hfix => .ok ?_
  have hraw := ByteStore.reduced_load hs.memory hload
  have ht := FoldClosed.reduced.of_fixOrder (Failure.ofFault_eq_ok_iff.1 hfix) hraw
  exact ⟨rfl, ht, h.inert, h.inert', h.weaker⟩

/-- Operands have the same values, and their side conditions are weaker
together. -/
theorem forall₂_reliesOnLess (h : List.Forall₂ ReliesOnLess args args') :
    args.map (·.value) = args'.map (·.value) ∧ (∀ t ∈ args.map (·.value), t.Reduced) ∧
      (∀ t ∈ args.flatMap (·.needs), t.Inert) ∧ (∀ t ∈ args'.flatMap (·.needs), t.Inert) ∧
        Weaker (args.flatMap (·.needs)) (args'.flatMap (·.needs)) := by
  induction h with
  | nil =>
    exact ⟨rfl, List.forall_mem_nil _, List.forall_mem_nil _, List.forall_mem_nil _, .refl []⟩
  | cons hfirst _ ih =>
    obtain ⟨hvalues, hreduced, hinert, hinert', hweaker⟩ := ih
    refine ⟨?_, List.forall_mem_cons.2 ⟨hfirst.reduced, hreduced⟩,
      List.forall_mem_append.2 ⟨hfirst.inert, hinert⟩,
      List.forall_mem_append.2 ⟨hfirst.inert', hinert'⟩, hfirst.weaker.append hweaker⟩
    rw [List.map_cons, List.map_cons, hfirst.value_eq, hvalues]

theorem liftOp_alike (op : Op) (h : List.Forall₂ ReliesOnLess args args') :
    Alike ReliesOnLess (liftOp op args) (liftOp op args') := by
  obtain ⟨hvalues, hreduced, hinert, hinert', hweaker⟩ := forall₂_reliesOnLess h
  unfold liftOp
  rw [← hvalues]
  refine .bind_same fun t happly => .ok ?_
  exact ⟨rfl, FoldClosed.reduced.of_apply hreduced happly, hinert, hinert', hweaker⟩

/-- The side conditions of the first argument are among those of all. -/
theorem weaker_keptNeeds (h : List.Forall₂ ReliesOnLess args args') :
    Weaker (keptNeeds .first args) (keptNeeds .all args') := by
  cases h with
  | nil => exact .refl []
  | cons hfirst _ => exact hfirst.weaker.append (.nil _)

theorem liftCall_alike (callee : String) (retTy : Ty) (h : List.Forall₂ ReliesOnLess args args') :
    Alike ReliesOnLess (liftCall .first callee retTy args) (liftCall .all callee retTy args') := by
  obtain ⟨hvalues, hreduced, hinert, hinert', -⟩ := forall₂_reliesOnLess h
  unfold liftCall
  split
  · exact .error _
  · rw [← hvalues]
    refine .bind_same fun ⟨value, needs⟩ hcall => .bind_same fun t hresize => .ok ?_
    have hneeds := Helper.inert_call hreduced hcall
    have hkept : ∀ t ∈ keptNeeds .first args, t.Inert := by
      intro t ht
      obtain ⟨u, hu, hneed⟩ := mem_keptNeeds ht
      exact hinert t (List.mem_flatMap.2 ⟨u, hu, hneed⟩)
    have ht : t.Reduced := FoldClosed.reduced.of_resize (Failure.ofFault_eq_ok_iff.1 hresize)
      (FoldClosed.reduced.of_call hreduced hcall).1
    exact ⟨rfl, ht, List.forall_mem_append.2 ⟨hkept, hneeds⟩,
      List.forall_mem_append.2 ⟨hinert', hneeds⟩, (weaker_keptNeeds h).append (.refl needs)⟩

theorem liftMux_alike {l0 l0' lX lX' : Lifted} (h0 : ReliesOnLess l0 l0')
    (hX : ReliesOnLess lX lX') :
    Alike ReliesOnLess (liftMux cond l0 lX) (liftMux cond l0' lX') := by
  rw [liftMux_of_inert h0.inert hX.inert, liftMux_of_inert h0.inert' hX.inert', ← h0.value_eq,
    ← hX.value_eq]
  refine .bind_same fun zero _ => .bind_same fun isZero _ => .bind_same fun t hite => .ok ?_
  have ht : t.Reduced := FoldClosed.reduced.of_ite (Failure.ofFault_eq_ok_iff.1 hite) trivial
    h0.reduced hX.reduced
  exact ⟨rfl, ht, List.forall_mem_singleton.2 (inert_muxNeed h0.inert hX.inert),
    List.forall_mem_singleton.2 (inert_muxNeed h0.inert' hX.inert'),
    weaker_muxNeed h0.weaker hX.weaker h0.inert' hX.inert'⟩

theorem liftAll_alike {es : List Expr}
    (h : ∀ e ∈ es, Alike ReliesOnLess (s.lift .first e) (s.lift .all e)) :
    Alike (List.Forall₂ ReliesOnLess) (s.liftAll .first es) (s.liftAll .all es) := by
  induction es with
  | nil => exact .ok .nil
  | cons e es ih =>
    obtain ⟨he, hes⟩ := List.forall_mem_cons.1 h
    rw [liftAll, liftAll]
    exact he.bind fun hfirst => (ih hes).bind fun hrest => .ok (.cons hfirst hrest)

theorem lift_alike (hs : s.ConstantsReduced) (e : Expr) :
    Alike ReliesOnLess (s.lift .first e) (s.lift .all e) := by
  induction e using Expr.induction_children with
  | node e ih =>
    cases he : e.operands? with
    | some opArgs =>
      obtain ⟨op, args⟩ := opArgs
      rw [(Expr.operands_of_operands? he).2] at ih
      rw [lift_op he, lift_op he]
      exact (liftAll_alike ih).bind (liftOp_alike op)
    | none =>
      cases e with
      | binder | getI => exact .error _
      | unop | binop | triop | qop => cases he
      | get offset ty => exact liftGet_alike hs offset ty
      | rdTmp tmp =>
        rw [lift, lift]
        split
        · rename_i value htmp
          exact .ok (reliesOnLess_of_value (hs.temps _ _ htmp))
        · exact .error _
      | const literal => exact .ok (reliesOnLess_of_value (hasSort_const literal).reduced)
      | load order ty addr =>
        rw [lift, lift]
        exact (ih addr List.mem_cons_self).bind (liftLoad_alike hs order ty)
      | ccall callee retTy args =>
        rw [lift, lift]
        exact (liftAll_alike ih).bind (liftCall_alike callee retTy)
      | mux0X cond expr0 exprX =>
        rw [lift, lift]
        refine (ih cond Expr.cond_mem_children).bind fun hcond => ?_
        refine (ih expr0 Expr.expr0_mem_children).bind fun hzero => ?_
        refine (ih exprX Expr.exprX_mem_children).bind fun hother => ?_
        rw [hcond.value_eq]
        exact liftMux_alike hzero hother

/-- Whatever lifting adds to the side conditions is inert. -/
theorem inert_of_lift (hs : s.ConstantsReduced) {e : Expr} (h : s.lift policy e = .ok l) :
    ∀ t ∈ l.needs, t.Inert := by
  have halike := lift_alike hs e
  cases policy with
  | first =>
    rw [h] at halike
    generalize s.lift .all e = other at halike
    cases halike with
    | ok hless => exact hless.inert
  | all =>
    rw [h] at halike
    generalize s.lift .first e = other at halike
    cases halike with
    | ok hless => exact hless.inert'

/-- The policy on arguments changes side conditions only.  Under both policies
lifting fails in the same way, or gives the same value, and a model that
satisfies the side conditions of all arguments satisfies those of the first
ones. -/
theorem lift_first_alike_all (hs : s.HoldsBitVectors) (e : Expr) :
    Alike (fun first all => first.value = all.value ∧ ∀ m : Model,
        (∀ t ∈ all.needs, t.Decides m true) → ∀ t ∈ first.needs, t.Decides m true)
      (s.lift .first e) (s.lift .all e) :=
  (lift_alike hs.constantsReduced e).mono fun h => ⟨h.value_eq, fun _ => h.weaker.holds⟩

/-! ### A call as the second argument of a call -/

/-- A choice between zero and a load at the carry of an operation on the carry
of another one. -/
def nestedTree : Expr :=
  .mux0X (.rdTmp 0) (.const (.u8 0)) (.load .little .i8
    (.ccall "amd64g_calculate_rflags_c" .i64
      [.rdTmp 1, carryCall (.rdTmp 0) .i64, .const (.u64 1), .const (.u64 0)]))

theorem lift_first_alike_all_nested :
    ∃ first all, pinnedPath.lift .first nestedTree = .ok first ∧
      pinnedPath.lift .all nestedTree = .ok all ∧ first.needs ≠ all.needs ∧
        first.value = all.value ∧ ∀ m : Model, (∀ t ∈ all.needs, t.Decides m true) →
          ∀ t ∈ first.needs, t.Decides m true := by
  have hlifts : (pinnedPath.lift .first nestedTree).toOption.any fun first =>
      (pinnedPath.lift .all nestedTree).toOption.any fun all => first.needs ≠ all.needs := by
    decide +kernel
  obtain ⟨first, hfirst, hlifts⟩ := any_toOption_iff.1 hlifts
  obtain ⟨all, hall, hdiffer⟩ := any_toOption_iff.1 hlifts
  have h := lift_first_alike_all wellFormed_pinnedPath.holdsBitVectors nestedTree
  rw [hfirst, hall] at h
  cases h with
  | ok hagree => exact ⟨first, all, hfirst, hall, of_decide_eq_true hdiffer, hagree⟩

end PathState

end SymLift
