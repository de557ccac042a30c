import SymLift.ByteStore
import SymLift.Proofs.Helpers

/-!
# What the folding constructors keep

Terms are built by the folding constructors only.  A property of bit-vectors
that all of them keep, with a property of conditions beside it, is kept by
whatever is built from such terms: by operators, by stores and by flag
helpers.  `FoldClosed` is such a pair of properties, with one clause for each
constructor.

* `FoldClosed.of_lit` to `FoldClosed.of_fixOrder`: the checked constructors,
  where they succeed.
* `FoldClosed.of_apply`: operators, whatever the sorts of their operands.
* `FoldClosed.of_loadConcrete`: what is joined from the bytes of a store.
* `FoldClosed.flags_ofThunk`: all flags of an operation, and
  `FoldClosed.of_call` the value of a flag helper and what it relies on.
-/

namespace SymLift

/-- A property of bit-vectors and one of conditions that the folding
constructors keep. -/
structure FoldClosed where
  word : Term → Prop
  truth : Term → Prop
  lit (value width : Nat) : word (Fold.lit value width)
  unary {arg : Term} (op : UnaryOp) (h : word arg) : word (Fold.unary op arg)
  binary {left right : Term} (op : BinaryOp) (hl : word left) (hr : word right) :
    word (Fold.binary op left right)
  extract {arg : Term} (hi lo : Nat) (h : word arg) : word (Fold.extract hi lo arg)
  concat {high low : Term} (hh : word high) (hl : word low) : word (Fold.concat high low)
  zeroExt {arg : Term} (count : Nat) (h : word arg) : word (Fold.zeroExt count arg)
  signExt {arg : Term} (count : Nat) (h : word arg) : word (Fold.signExt count arg)
  ite {cond thenArm elseArm : Term} (hc : truth cond) (ht : word thenArm) (he : word elseArm) :
    word (Fold.ite cond thenArm elseArm)
  compare {left right : Term} (op : CompareOp) (hl : word left) (hr : word right) :
    truth (Fold.compare op left right)
  not {arg : Term} (h : truth arg) : truth (Fold.not arg)
  conj {terms : List Term} (h : ∀ t ∈ terms, truth t) : truth (Fold.conj terms)
  disj {terms : List Term} (h : ∀ t ∈ terms, truth t) : truth (Fold.disj terms)
  truthIte {cond thenArm elseArm : Term} (hc : truth cond) (ht : truth thenArm)
    (he : truth elseArm) : truth (Fold.ite cond thenArm elseArm)

namespace FoldClosed

attribute [grind ←] lit unary binary extract concat zeroExt signExt ite compare not truthIte

variable (K : FoldClosed) {arg amount left right high low cond thenArm elseArm t : Term}

/-! ## Constructors made of others -/

@[grind ←]
theorem resize (width : Nat) (h : K.word arg) : K.word (Fold.resize width arg) := by
  unfold Fold.resize
  split
  · exact h
  · split
    · exact K.zeroExt _ h
    · exact K.extract _ _ h

@[grind ←]
theorem shift (op : BinaryOp) (h : K.word arg) (ha : K.word amount) :
    K.word (Fold.shift op arg amount) :=
  K.binary op h (K.resize _ ha)

@[grind ←]
theorem notEqual (hl : K.word left) (hr : K.word right) : K.truth (Fold.notEqual left right) :=
  K.not (K.compare .eq hl hr)

@[grind ←]
theorem boolToBits (width : Nat) (h : K.truth cond) : K.word (Fold.boolToBits width cond) :=
  K.ite h (K.lit _ _) (K.lit _ _)

/-- A choice among numbered arms. -/
theorem select {tests arms : Nat → Term} {last : Term} (choices : List Nat)
    (htests : ∀ i, K.truth (tests i)) (harms : ∀ i, K.word (arms i)) (hlast : K.word last) :
    K.word (choices.foldr (fun i rest => Fold.ite (tests i) (arms i) rest) last) := by
  induction choices with
  | nil => exact hlast
  | cons i choices ih => exact K.ite (htests i) (harms i) ih

/-! ### Bytes -/

theorem byte (index : Nat) (h : K.word arg) : K.word (Fold.byte arg index) :=
  K.extract _ _ h

theorem toBytes (order : ByteOrder) (h : K.word arg) : ∀ t ∈ Fold.toBytes order arg, K.word t := by
  have hsplit : ∀ t ∈ Fold.splitBytes arg, K.word t :=
    List.forall_mem_map.2 fun i _ => K.byte i (K.resize _ h)
  cases order with
  | little => exact hsplit
  | big => exact fun t ht => hsplit t (List.mem_reverse.1 ht)

theorem concatAll {first : Term} {rest : List Term} (hfirst : K.word first)
    (hrest : ∀ t ∈ rest, K.word t) : K.word (Fold.concatAll first rest) := by
  induction rest generalizing first with
  | nil => exact hfirst
  | cons t rest ih =>
    obtain ⟨ht, hrest⟩ := List.forall_mem_cons.1 hrest
    exact ih (K.concat hfirst ht) hrest

theorem reverseBytes (h : K.word arg) : K.word (Fold.reverseBytes arg) := by
  unfold Fold.reverseBytes
  dsimp only
  split
  · exact h
  · exact K.concatAll (K.byte 0 h) (List.forall_mem_map.2 fun i _ => K.byte i h)

/-! ## Checked constructors -/

theorem of_lit {value width : Nat} (h : Build.lit value width = .ok t) : K.word t := by
  obtain ⟨-, rfl⟩ := Build.of_lit h
  exact K.lit _ _

theorem of_binary {op : BinaryOp} (h : Build.binary op left right = .ok t) (hl : K.word left)
    (hr : K.word right) : K.word t := by
  obtain ⟨-, rfl⟩ := Build.of_binary h
  exact K.binary op hl hr

theorem of_shift {op : BinaryOp} (h : Build.shift op arg amount = .ok t) (ha : K.word arg)
    (hamount : K.word amount) : K.word t := by
  rw [← Build.of_shift h]
  exact K.shift op ha hamount

theorem of_extract {hi lo : Nat} (h : Build.extract hi lo arg = .ok t) (ha : K.word arg) :
    K.word t := by
  obtain ⟨-, rfl⟩ := Build.of_extract h
  exact K.extract hi lo ha

theorem of_concat (h : Build.concat high low = .ok t) (hh : K.word high) (hl : K.word low) :
    K.word t := by
  obtain ⟨-, rfl⟩ := Build.of_concat h
  exact K.concat hh hl

theorem of_zeroExt {count : Nat} (h : Build.zeroExt count arg = .ok t) (ha : K.word arg) :
    K.word t := by
  rw [← Build.of_zeroExt h]
  exact K.zeroExt count ha

theorem of_signExt {count : Nat} (h : Build.signExt count arg = .ok t) (ha : K.word arg) :
    K.word t := by
  rw [← Build.of_signExt h]
  exact K.signExt count ha

theorem of_resize {width : Nat} (h : Build.resize width arg = .ok t) (ha : K.word arg) :
    K.word t := by
  rw [← Build.of_resize h]
  exact K.resize width ha

theorem of_compare {op : CompareOp} (h : Build.compare op left right = .ok t) (hl : K.word left)
    (hr : K.word right) : K.truth t := by
  obtain ⟨-, rfl⟩ := Build.of_compare h
  exact K.compare op hl hr

theorem of_notEqual (h : Build.notEqual left right = .ok t) (hl : K.word left)
    (hr : K.word right) : K.truth t := by
  obtain ⟨-, rfl⟩ := Build.of_notEqual h
  exact K.notEqual hl hr

theorem of_ite (h : Build.ite cond thenArm elseArm = .ok t) (hc : K.truth cond)
    (ht : K.word thenArm) (he : K.word elseArm) : K.word t := by
  obtain ⟨-, rfl⟩ := Build.of_ite h
  exact K.ite hc ht he

theorem of_boolToBits {width : Nat} (h : Build.boolToBits width cond = .ok t)
    (hc : K.truth cond) : K.word t := by
  obtain ⟨-, rfl⟩ := Build.of_boolToBits h
  exact K.boolToBits width hc

theorem of_toBytes {order : ByteOrder} {bytes : List Term}
    (h : Build.toBytes order arg = .ok bytes) (ha : K.word arg) : ∀ t ∈ bytes, K.word t := by
  obtain ⟨_, -, h⟩ := bind_eq_ok_iff.1 h
  cases h
  exact K.toBytes order ha

theorem of_fixOrder {order : ByteOrder} (h : Build.fixOrder order arg = .ok t)
    (ha : K.word arg) : K.word t := by
  cases order with
  | big =>
    cases h
    exact ha
  | little =>
    have hreverse : Build.reverseBytes arg = .ok t := h
    unfold Build.reverseBytes at hreverse
    split at hreverse
    · cases hreverse
    · cases hreverse
      exact K.reverseBytes ha

/-! ## Operators -/

section Operators

open IR

theorem of_countZeros {width : Nat} {place : Nat → Nat} (ha : K.word arg)
    (h : Op.countZeros arg width place = .ok t) : K.word t := by
  obtain ⟨last, hlast, hfold⟩ := bind_eq_ok_iff.1 h
  clear h
  generalize List.range width = places at hfold
  induction places generalizing t with
  | nil =>
    cases hfold
    exact K.of_lit hlast
  | cons i places ih =>
    rw [List.foldrM_cons] at hfold
    obtain ⟨rest, hrest, hchoice⟩ := bind_eq_ok_iff.1 hfold
    obtain ⟨bit, hbit, hchoice⟩ := bind_eq_ok_iff.1 hchoice
    obtain ⟨set, hset, hite⟩ := bind_eq_ok_iff.1 hchoice
    have hcond := K.of_compare hset (K.of_extract hbit ha) (K.lit 1 1)
    exact K.of_ite hite hcond (K.lit _ _) (ih hrest)

theorem of_applyUnary {family : Family} {width : Nat} (ha : K.word arg)
    (h : Op.applyUnary family width arg = .ok t) : K.word t := by
  unfold Op.applyUnary at h
  split at h
  · obtain ⟨zero, hzero, h⟩ := bind_eq_ok_iff.1 h
    obtain ⟨differs, hdiffers, hflag⟩ := bind_eq_ok_iff.1 h
    exact K.of_boolToBits hflag (K.of_notEqual hdiffers ha (K.of_lit hzero))
  · exact K.of_countZeros ha h
  · exact K.of_countZeros ha h
  · cases h
    exact K.unary .complement ha

theorem of_applyBinary {family : Family} {width : Nat} (hl : K.word left) (hr : K.word right)
    (h : Op.applyBinary family width left right = .ok t) : K.word t := by
  cases family with
  | add | sub | mul | divU | divS | and | or | xor => exact K.of_binary h hl hr
  | mullS =>
    obtain ⟨l, hl', h⟩ := bind_eq_ok_iff.1 h
    obtain ⟨r, hr', hmul⟩ := bind_eq_ok_iff.1 h
    exact K.of_binary hmul (K.of_signExt hl' hl) (K.of_signExt hr' hr)
  | mullU =>
    obtain ⟨l, hl', h⟩ := bind_eq_ok_iff.1 h
    obtain ⟨r, hr', hmul⟩ := bind_eq_ok_iff.1 h
    exact K.of_binary hmul (K.of_zeroExt hl' hl) (K.of_zeroExt hr' hr)
  | shl | shr | sar => exact K.of_shift h hl hr
  | maxU =>
    obtain ⟨less, hless, hite⟩ := bind_eq_ok_iff.1 h
    exact K.of_ite hite (K.of_compare hless hl hr) hr hl
  | cmpEQ | cmpLTS | cmpLTU | cmpLES | cmpLEU =>
    obtain ⟨cond, hcond, hflag⟩ := bind_eq_ok_iff.1 h
    exact K.of_boolToBits hflag (K.of_compare hcond hl hr)
  | _ =>
    obtain ⟨cond, hcond, hflag⟩ := bind_eq_ok_iff.1 h
    exact K.of_boolToBits hflag (K.of_notEqual hcond hl hr)

theorem of_applyConversion {conversion : Conversion} {source target : Nat} (ha : K.word arg)
    (h : Op.applyConversion conversion source target arg = .ok t) : K.word t := by
  cases conversion with
  | unsigned => exact K.of_zeroExt h ha
  | signed => exact K.of_signExt h ha
  | high | low | join =>
    obtain ⟨top, -, hcut⟩ := bind_eq_ok_iff.1 h
    exact K.of_extract hcut ha

theorem of_applyDivMod {signed : Bool} {source target : Nat} (hl : K.word left)
    (hr : K.word right) (h : Op.applyDivMod signed source target left right = .ok t) :
    K.word t := by
  have hdivide {divisor : Term} (hd : K.word divisor) {divide rem : BinaryOp}
      (h : (do
        let quotient ← Build.binary divide left divisor
        let remainder ← Build.binary rem left divisor
        Build.concat (← Build.extract (target - 1) 0 remainder)
          (← Build.extract (target - 1) 0 quotient)) = .ok t) : K.word t := by
    obtain ⟨quotient, hquotient, h⟩ := bind_eq_ok_iff.1 h
    obtain ⟨remainder, hremainder, h⟩ := bind_eq_ok_iff.1 h
    obtain ⟨high, hhigh, h⟩ := bind_eq_ok_iff.1 h
    obtain ⟨low, hlow, hboth⟩ := bind_eq_ok_iff.1 h
    exact K.of_concat hboth (K.of_extract hhigh (K.of_binary hremainder hl hd))
      (K.of_extract hlow (K.of_binary hquotient hl hd))
  cases signed with
  | true =>
    obtain ⟨divisor, hdivisor, h⟩ := bind_eq_ok_iff.1 h
    exact hdivide (K.of_signExt hdivisor hr) h
  | false =>
    obtain ⟨divisor, hdivisor, h⟩ := bind_eq_ok_iff.1 h
    exact hdivide (K.of_zeroExt hdivisor hr) h

/-- The value of an operator, whatever the sorts of its operands. -/
theorem of_apply {op : Op} {args : List Term} (hargs : ∀ a ∈ args, K.word a)
    (h : op.apply args = .ok t) : K.word t := by
  rw [Op.apply.eq_def] at h
  split at h
  · cases h
  · split at h
    · exact K.of_applyUnary (List.forall_mem_singleton.1 hargs) (Failure.ofFault_eq_ok_iff.1 h)
    · cases h
  · obtain ⟨hl, hr⟩ := List.forall_mem_cons.1 hargs
    split at h
    · exact K.of_applyBinary hl (List.forall_mem_singleton.1 hr) (Failure.ofFault_eq_ok_iff.1 h)
    · cases h
  · obtain ⟨hl, hr⟩ := List.forall_mem_cons.1 hargs
    obtain ⟨fits, -, hconcat⟩ := bind_eq_ok_iff.1 h
    split at hconcat
    · exact K.of_concat (Failure.ofFault_eq_ok_iff.1 hconcat) hl (List.forall_mem_singleton.1 hr)
    · cases hconcat
  · split at h
    · split at h
      · exact K.of_applyConversion (List.forall_mem_singleton.1 hargs)
          (Failure.ofFault_eq_ok_iff.1 h)
      · cases h
    · cases h
  · obtain ⟨hl, hr⟩ := List.forall_mem_cons.1 hargs
    obtain ⟨fits, -, hdivide⟩ := bind_eq_ok_iff.1 h
    split at hdivide
    · exact K.of_applyDivMod hl (List.forall_mem_singleton.1 hr)
        (Failure.ofFault_eq_ok_iff.1 hdivide)
    · cases hdivide
  · cases h

end Operators

/-! ## Byte stores -/

section Stores

variable {s : ByteStore} {bytes : List Term} {addr count width : Nat}

theorem of_appendBytes {order : ByteOrder} {lower : Term} (hlower : K.word lower)
    (hbytes : ∀ t ∈ bytes, K.word t)
    (h : bytes.foldlM (ByteStore.appendByte order) lower = .ok t) : K.word t := by
  induction bytes generalizing lower with
  | nil =>
    cases h
    exact hlower
  | cons byte bytes ih =>
    obtain ⟨hbyte, hbytes⟩ := List.forall_mem_cons.1 hbytes
    rw [List.foldlM_cons] at h
    obtain ⟨joined, hjoin, h⟩ := bind_eq_ok_iff.1 h
    have hjoined : K.word joined := by
      cases order with
      | big => exact K.of_concat hjoin hlower hbyte
      | little => exact K.of_concat hjoin hbyte hlower
    exact ih hjoined hbytes h

theorem of_joinBytes (hs : ∀ addr, K.word (s.byteAt addr))
    (h : s.joinBytes addr count = .ok t) : K.word t := by
  have hread : ∀ t ∈ (List.range count).map fun i => s.byteAt (ByteStore.addressAt addr i),
      K.word t := List.forall_mem_map.2 fun i _ => hs _
  unfold ByteStore.joinBytes at h
  split at h
  · cases h
    exact K.lit 0 8
  · rename_i byte bytes hcells
    rw [hcells] at hread
    obtain ⟨hbyte, hbytes⟩ := List.forall_mem_cons.1 hread
    exact K.of_appendBytes hbyte hbytes h

theorem of_loadConcrete (hs : ∀ addr, K.word (s.byteAt addr))
    (h : s.loadConcrete addr width = .ok t) : K.word t := by
  unfold ByteStore.loadConcrete at h
  split at h
  · cases h
  · obtain ⟨joined, hjoin, hresize⟩ := bind_eq_ok_iff.1 (Failure.ofFault_eq_ok_iff.1 h)
    exact K.of_resize hresize (K.of_joinBytes hs hjoin)

/-- A load reads bytes of the store, or is a variable. -/
theorem of_load {place : Term} {known : List Term} (hs : ∀ addr, K.word (s.byteAt addr))
    (hvar : K.word (.var (s.unresolvedName place width) width))
    (h : s.load place width known = .ok t) : K.word t := by
  unfold ByteStore.load at h
  split at h
  · cases h
  · split at h
    · exact K.of_loadConcrete hs h
    · obtain ⟨-, rfl⟩ := Build.of_var (Failure.ofFault_eq_ok_iff.1 h)
      exact hvar

end Stores

/-! ## Flag helpers -/

/-- Every flag has the property. -/
structure Flags (f : FlagBits) : Prop where
  carry : K.word f.carry
  parity : K.word f.parity
  adjust : K.word f.adjust
  zero : K.word f.zero
  sign : K.word f.sign
  overflow : K.word f.overflow

section Flags

open FlagBits

variable {f : FlagBits} {dep1 dep2 ndep result code : Term}

@[grind ←]
theorem bit (place : Nat) (h : K.word arg) : K.word (FlagBits.bit arg place) :=
  K.extract _ _ h

@[grind ←]
theorem topBit (h : K.word arg) : K.word (FlagBits.topBit arg) := K.bit _ h

@[grind ←]
theorem truthBit (h : K.truth cond) : K.word (FlagBits.truthBit cond) := K.boolToBits 1 h

theorem parityFlag (h : K.word result) : K.word (FlagBits.parityFlag result) := by
  have hfold (places : List Nat) {odd : Term} (hodd : K.word odd) :
      K.word (places.foldl (fun odd place => Fold.binary .xor odd (FlagBits.bit result place))
        odd) := by
    induction places generalizing odd with
    | nil => exact hodd
    | cons place places ih => exact ih (K.binary .xor hodd (K.bit place h))
  exact K.unary .complement (hfold _ (K.bit 0 h))

@[grind ←]
theorem adjustFlag (h : K.word result) (hl : K.word left) (hr : K.word right) :
    K.word (FlagBits.adjustFlag result left right) :=
  K.bit 4 (K.binary .xor (K.binary .xor h hl) hr)

theorem flags_ofOutcome {o : Outcome} (hresult : K.word o.result) (hcarry : K.word o.carry)
    (hadjust : K.word o.adjust) (hoverflow : K.word o.overflow) : K.Flags (ofOutcome o) where
  carry := hcarry
  parity := K.parityFlag hresult
  adjust := hadjust
  zero := K.truthBit (K.compare .eq hresult (K.lit _ _))
  sign := K.topBit hresult
  overflow := hoverflow

/-- The flags of an operation. -/
theorem flags_ofThunk (op : ThunkOp) (width : Nat) (h1 : K.word dep1) (h2 : K.word dep2)
    (hn : K.word ndep) : K.Flags (ofThunk op width dep1 dep2 ndep) := by
  cases op with
  | copy => constructor <;> grind -ring -linarith [ofThunk]
  | add => apply flags_ofOutcome <;> grind -ring -linarith [addOutcome, sumOverflow]
  | sub => apply flags_ofOutcome <;> grind -ring -linarith [subOutcome, differenceOverflow]
  | adc => apply flags_ofOutcome <;> grind -ring -linarith [adcOutcome, sumOverflow]
  | sbb => apply flags_ofOutcome <;> grind -ring -linarith [sbbOutcome, differenceOverflow]
  | logic => apply flags_ofOutcome <;> grind -ring -linarith
  | inc | dec => apply flags_ofOutcome <;> grind -ring -linarith [stepOutcome]
  | shl | shr => apply flags_ofOutcome <;> grind -ring -linarith [shiftOutcome]

namespace Flags

variable {K}

theorem pack (h : K.Flags f) (word : Nat) : K.word (f.pack word) := by
  have hplaced {flag : Term} (place : Nat) (hflag : K.word flag) :
      K.word (placed word flag place) :=
    K.shift .shl (K.zeroExt _ hflag) (K.lit _ _)
  have hparity := K.binary .or (hplaced carryPlace h.carry) (hplaced parityPlace h.parity)
  have hadjust := K.binary .or hparity (hplaced adjustPlace h.adjust)
  have hzero := K.binary .or hadjust (hplaced zeroPlace h.zero)
  have hsign := K.binary .or hzero (hplaced signPlace h.sign)
  exact K.binary .or hsign (hplaced overflowPlace h.overflow)

theorem conditionBit (h : K.Flags f) (code : Nat) : K.word (f.conditionBit code) := by
  grind -ring -linarith [FlagBits.conditionBit, h.carry, h.parity, h.zero, h.sign, h.overflow]

theorem condition (h : K.Flags f) (hcode : K.word code) : K.word (f.condition code) := by
  unfold FlagBits.condition
  split
  · exact h.conditionBit _
  · exact K.select _ (fun c => K.compare .eq hcode (K.lit c _)) h.conditionBit (h.conditionBit 15)

end Flags

end Flags

section Calls

variable {h : Helper} {ccOp code value : Term} {needs args : List Term} {f : ThunkOp → Nat → Term}

theorem of_overThunkOp (hf : ∀ op width, K.word (f op width)) (hop : K.word ccOp)
    (hcall : h.overThunkOp ccOp f = .ok (value, needs)) :
    K.word value ∧ ∀ t ∈ needs, K.truth t := by
  have htest (op : Nat) : K.truth (isThunkOp ccOp op) := K.compare .eq hop (K.lit _ _)
  have hat (op : Nat) : K.word (h.guest.atThunkOp f op) := by
    rw [Guest.atThunkOp_eq]
    exact hf _ _
  have hmodeled : K.truth (h.guest.isModeled ccOp) :=
    K.disj (List.forall_mem_cons.2 ⟨htest 0, List.forall_mem_map.2 fun op _ => htest op⟩)
  unfold Helper.overThunkOp at hcall
  split at hcall
  · split at hcall
    · cases hcall
      exact ⟨hf _ _, List.forall_mem_nil _⟩
    · cases hcall
  · cases hcall
    exact ⟨K.select _ htest hat (hf _ _), List.forall_mem_singleton.2 hmodeled⟩

theorem of_codeConstraints (hcode : K.word code) :
    ∀ t ∈ Helper.codeConstraints code, K.truth t := by
  unfold Helper.codeConstraints
  split
  · exact List.forall_mem_nil _
  · exact List.forall_mem_singleton.2 (K.compare .ult hcode (K.lit _ _))

theorem of_callWords (hargs : ∀ t ∈ args, K.word t)
    (hcall : h.callWords args = .ok (value, needs)) :
    K.word value ∧ ∀ t ∈ needs, K.truth t := by
  rcases Helper.callWords_cases hcall with
    ⟨code, ccOp, dep1, dep2, ndep, cond, opNeeds, -, rfl, hop, rfl, rfl⟩ |
    ⟨ccOp, dep1, dep2, ndep, -, rfl, hop⟩ | ⟨ccOp, dep1, dep2, ndep, -, rfl, hop⟩
  · simp only [List.forall_mem_cons] at hargs
    obtain ⟨hcode, hccOp, h1, h2, hnd, -⟩ := hargs
    obtain ⟨hcond, hneeds⟩ := K.of_overThunkOp
      (fun op width => (K.flags_ofThunk op width h1 h2 hnd).condition hcode) hccOp hop
    exact ⟨K.zeroExt _ hcond, List.forall_mem_append.2 ⟨hneeds, K.of_codeConstraints hcode⟩⟩
  · simp only [List.forall_mem_cons] at hargs
    obtain ⟨hccOp, h1, h2, hnd, -⟩ := hargs
    exact K.of_overThunkOp (fun op width => (K.flags_ofThunk op width h1 h2 hnd).pack _) hccOp hop
  · simp only [List.forall_mem_cons] at hargs
    obtain ⟨hccOp, h1, h2, hnd, -⟩ := hargs
    exact K.of_overThunkOp
      (fun op width => K.zeroExt _ (K.flags_ofThunk op width h1 h2 hnd).carry) hccOp hop

/-- The value of a helper call and what it relies on. -/
theorem of_call (hargs : ∀ t ∈ args, K.word t) (hcall : h.call args = .ok (value, needs)) :
    K.word value ∧ ∀ t ∈ needs, K.truth t :=
  K.of_callWords (List.forall_mem_map.2 fun t ht => K.resize _ (hargs t ht))
    (Helper.call_eq h args ▸ hcall)

end Calls

end FoldClosed

end SymLift
