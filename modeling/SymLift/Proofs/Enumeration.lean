import SymLift.Proofs.Names
import SymLift.Proofs.Valuation
import SymLift.Solver

/-!
# Enumeration decides

`Solver.check` tries the assignments to the free variables one by one.  This
module says what its answer means.

* `Binds` says that an assignment gives every variable a number of its width,
  and `rank` is the number that has these as digits.  `rank_assignment` and
  `assignment_rank` say that counting visits every such assignment once.
* `lists_freeVars`: the variables that are enumerated are those that occur.
* `Satisfies.exists_binds`: if any model makes the constraints true, then an
  assignment does.
* `search_spec`: a search finds the first assignment that does.
* `satisfies_of_check`: an assignment that is answered makes the constraints
  true, well formed or not.
* `check_answers` and `check_decides` put these together.
-/

namespace SymLift.Solver

/-! ## Assignments are numbers -/

/-- An assignment has one pair for each variable, in their order, with its
name and a number of its width. -/
def Binds (vars pairs : List (String × Nat)) : Prop :=
  List.Forall₂ (fun var pair => pair.1 = var.1 ∧ pair.2 < 2 ^ var.2) vars pairs

/-- The number whose digits are the values of an assignment.  The first
variable is the least significant digit. -/
def rank : (vars pairs : List (String × Nat)) → Nat
  | (_, width) :: vars, (_, value) :: pairs => value + 2 ^ width * rank vars pairs
  | _, _ => 0

variable {vars pairs : List (String × Nat)} {constraints : List Term} {m : Model}

theorem rank_lt (h : Binds vars pairs) : rank vars pairs < 2 ^ totalBits vars := by
  induction h with
  | nil => exact Nat.one_pos
  | @cons var pair vars pairs hpair _ ih =>
    have hstep : 2 ^ var.2 * (rank vars pairs + 1) ≤ 2 ^ var.2 * 2 ^ totalBits vars :=
      Nat.mul_le_mul_left _ ih
    rw [rank, totalBits, Nat.pow_add]
    rw [Nat.mul_add, Nat.mul_one] at hstep
    have hlt := hpair.2
    omega

theorem binds_assignment (hw : ∀ var ∈ vars, var.2 ≤ Word.maxBits) (code : Nat) :
    Binds vars (assignment vars code) := by
  induction vars generalizing code with
  | nil => exact .nil
  | cons var vars ih =>
    obtain ⟨hvar, hvars⟩ := List.forall_mem_cons.1 hw
    refine .cons ⟨rfl, ?_⟩ (ih hvars _)
    rw [← Word.size_eq hvar]
    exact Word.truncate_lt _ _

/-- The digits of a number make up that number. -/
theorem rank_assignment (hw : ∀ var ∈ vars, var.2 ≤ Word.maxBits) {code : Nat}
    (hcode : code < 2 ^ totalBits vars) : rank vars (assignment vars code) = code := by
  induction vars generalizing code with
  | nil =>
    rw [totalBits, Nat.pow_zero, Nat.lt_one_iff] at hcode
    rw [hcode]
    rfl
  | cons var vars ih =>
    obtain ⟨hvar, hvars⟩ := List.forall_mem_cons.1 hw
    rw [totalBits, Nat.pow_add] at hcode
    have hrest : code / 2 ^ var.2 < 2 ^ totalBits vars := Nat.div_lt_of_lt_mul hcode
    rw [assignment, rank, Word.truncate, Word.size_eq hvar, ih hvars hrest, Nat.mod_add_div]

/-- An assignment is the one that its number has as digits. -/
theorem assignment_rank (hw : ∀ var ∈ vars, var.2 ≤ Word.maxBits) (h : Binds vars pairs) :
    assignment vars (rank vars pairs) = pairs := by
  induction h with
  | nil => rfl
  | @cons var pair vars pairs hpair _ ih =>
    obtain ⟨hvar, hvars⟩ := List.forall_mem_cons.1 hw
    have hpos : 0 < 2 ^ var.2 := Nat.two_pow_pos _
    rw [rank, assignment, Word.truncate, Word.size_eq hvar, Nat.add_mul_mod_self_left,
      Nat.mod_eq_of_lt hpair.2, Nat.add_mul_div_left _ _ hpos, Nat.div_eq_of_lt hpair.2,
      Nat.zero_add, ih hvars, ← hpair.1]

theorem width_le_totalBits {var : String × Nat} (h : var ∈ vars) : var.2 ≤ totalBits vars := by
  induction vars with
  | nil => exact absurd h List.not_mem_nil
  | cons first vars ih =>
    unfold totalBits
    rcases List.mem_cons.1 h with rfl | h
    · exact Nat.le_add_right _ _
    · exact Nat.le_add_left_of_le (ih h)

/-! ## The variables that are enumerated -/

/-- Every name occurs at one width only. -/
def OneWidth (constraints : List Term) : Prop :=
  ∀ c ∈ constraints, ∀ d ∈ constraints, ∀ p ∈ c.occurrences, ∀ q ∈ d.occurrences,
    p.1 = q.1 → p.2 = q.2

/-- The variables are those that occur in the constraints, in the order of
the bytes of their names. -/
structure Lists (vars : List (String × Nat)) (constraints : List Term) : Prop where
  mem_iff : ∀ p, p ∈ vars ↔ ∃ c ∈ constraints, p ∈ c.occurrences
  sorted : vars.Pairwise fun p q => nameBytes p.1 < nameBytes q.1

/-- A name with one value only is looked up by membership. -/
theorem lookup_eq_some_iff_mem {l : List (String × Nat)}
    (h : ∀ p ∈ l, ∀ q ∈ l, p.1 = q.1 → p.2 = q.2) {name : String} {value : Nat} :
    l.lookup name = some value ↔ (name, value) ∈ l := by
  induction l with
  | nil => simp
  | cons p l ih =>
    have htail := ih fun q hq r hr => h q (List.mem_cons_of_mem p hq) r (List.mem_cons_of_mem p hr)
    rw [List.lookup_cons, List.mem_cons]
    by_cases hname : name = p.1
    · have hhead : (name == p.1) = true := beq_iff_eq.2 hname
      rw [hhead]
      constructor
      · intro hvalue
        exact Or.inl (Prod.ext hname (Option.some.inj hvalue).symm)
      · rintro (hp | hl)
        · rw [← hp]
        · exact congrArg some (h p List.mem_cons_self _ (List.mem_cons_of_mem p hl) hname.symm)
    · have hhead : (name == p.1) = false := beq_eq_false_iff_ne.2 hname
      have hp : (name, value) ≠ p := fun hp => hname (congrArg Prod.fst hp)
      rw [hhead, or_iff_right hp]
      exact htail

/-- The constraints are collected from left to right, and each replaces what
those before it found. -/
theorem getElem?_foldl_collectVariables (found : VariableMap) (name : String) :
    (constraints.foldl (fun found c => c.collectVariables found) found)[name]? =
      ((constraints.reverse.flatMap Term.occurrences).lookup name).or found[name]? := by
  induction constraints generalizing found with
  | nil => rfl
  | cons c cs ih =>
    rw [List.foldl_cons, ih, Term.getElem?_collectVariables, List.reverse_cons,
      List.flatMap_append, List.lookup_append, List.flatMap_singleton, Option.or_assoc]

theorem lists_freeVars (h : OneWidth constraints) : Lists (freeVars constraints) constraints where
  mem_iff := by
    rintro ⟨name, width⟩
    rw [freeVars, Std.TreeMap.mem_toList_iff_getElem?_eq_some, getElem?_foldl_collectVariables,
      Std.TreeMap.getElem?_emptyc, Option.or_none, lookup_eq_some_iff_mem]
    · simp only [List.mem_flatMap, List.mem_reverse]
    · intro p hp q hq
      simp only [List.mem_flatMap, List.mem_reverse] at hp hq
      obtain ⟨c, hc, hp⟩ := hp
      obtain ⟨d, hd, hq⟩ := hq
      exact h c hc d hd p hp q hq
  sorted := by
    refine Std.TreeMap.ordered_keys_toList.imp fun {p q} hpq => nameBytes_lt ?_
    exact compareOfLessAndEq_eq_lt.1 hpq

theorem Lists.nodup_names (h : Lists vars constraints) : (vars.map Prod.fst).Nodup := by
  refine List.pairwise_map.2 (h.sorted.imp fun {p q} hlt hname => ?_)
  rw [hname] at hlt
  exact absurd hlt (List.lt_irrefl _)

theorem Lists.nodup (h : Lists vars constraints) : vars.Nodup := h.nodup_names.of_map

/-- A name is listed once. -/
theorem Lists.eq_of_name_eq (h : Lists vars constraints) :
    ∀ p ∈ vars, ∀ q ∈ vars, p.1 = q.1 → p = q :=
  fun _ hp _ hq => List.inj_on_of_nodup_map h.nodup_names hp hq

/-! ## A model whatsoever comes down to an assignment -/

/-- Every constraint is true under a model. -/
def Satisfies (m : Model) (constraints : List Term) : Prop := ∀ c ∈ constraints, c.Decides m true

/-- The numbers that a model gives the variables, cut to their widths. -/
def restrict (m : Model) (vars : List (String × Nat)) : List (String × Nat) :=
  vars.map fun p => (p.1, (m p.1).getD 0 % 2 ^ p.2)

theorem binds_restrict (m : Model) (vars : List (String × Nat)) : Binds vars (restrict m vars) := by
  rw [Binds, restrict, List.forall₂_map_right_iff, List.forall₂_same]
  intro p _
  exact ⟨rfl, Nat.mod_lt _ (Nat.two_pow_pos _)⟩

theorem covers_restrict (hvars : Lists vars constraints) (hw : ∀ p ∈ vars, p.2 ≤ Word.maxBits) :
    m.Covers (Model.ofList (restrict m vars)) vars := by
  intro p hp value hvalue
  have hlookup : (restrict m vars).lookup p.1 = some (value % 2 ^ p.2) := by
    rw [lookup_eq_some_iff_mem, restrict, List.mem_map]
    · exact ⟨p, hp, by rw [hvalue, Option.getD_some]⟩
    · intro r hr r' hr' hname
      obtain ⟨q, hq, rfl⟩ := List.mem_map.1 hr
      obtain ⟨q', hq', rfl⟩ := List.mem_map.1 hr'
      rw [hvars.eq_of_name_eq q hq q' hq' hname]
  refine ⟨_, hlookup, ?_⟩
  rw [Word.truncate, Word.truncate, Word.size_eq (hw p hp), Nat.mod_mod]

/-- If a model makes the constraints true, then so does an assignment. -/
theorem Satisfies.exists_binds (hsort : ∀ c ∈ constraints, c.HasSort .bool)
    (hvars : Lists vars constraints) (hw : ∀ p ∈ vars, p.2 ≤ Word.maxBits)
    (h : Satisfies m constraints) :
    ∃ pairs, Binds vars pairs ∧ Satisfies (Model.ofList pairs) constraints := by
  refine ⟨restrict m vars, binds_restrict m vars, fun c hc => ?_⟩
  refine (hsort c hc).eval_transfer (fun p hp => ?_) (h c hc)
  exact covers_restrict hvars hw p ((hvars.mem_iff p).2 ⟨c, hc, hp⟩)

theorem Binds.names_eq (h : Binds vars pairs) : pairs.map Prod.fst = vars.map Prod.fst := by
  induction h with
  | nil => rfl
  | cons hpair _ ih => rw [List.map_cons, List.map_cons, hpair.1, ih]

/-- Under an assignment every constraint has a truth. -/
theorem Binds.exists_decides (hsort : ∀ c ∈ constraints, c.HasSort .bool)
    (hvars : Lists vars constraints) (h : Binds vars pairs) :
    ∀ c ∈ constraints, ∃ b, c.Decides (Model.ofList pairs) b := by
  intro c hc
  refine (hsort c hc).hasValue fun p hp => ?_
  have hmem : p ∈ vars := (hvars.mem_iff p).2 ⟨c, hc, hp⟩
  have hname : p.1 ∈ pairs.map Prod.fst := h.names_eq ▸ List.mem_map_of_mem hmem
  obtain ⟨pair, hpair, heq⟩ := List.mem_map.1 hname
  exact Option.isSome_iff_exists.1 (List.lookup_isSome_iff.2 ⟨pair, hpair, beq_iff_eq.2 heq.symm⟩)

/-! ## Searching -/

theorem allHold_spec (h : ∀ c ∈ constraints, ∃ b, c.Decides m b) :
    ∃ b, allHold m constraints = .ok b ∧ (b = true ↔ Satisfies m constraints) := by
  induction constraints with
  | nil => exact ⟨true, rfl, by simp [Satisfies]⟩
  | cons c cs ih =>
    obtain ⟨⟨b, hb⟩, hcs⟩ := List.forall_mem_cons.1 h
    have hholds : c.holds m = .ok b := by rw [Term.holds, hb]
    have hsat : Satisfies m (c :: cs) ↔ b = true ∧ Satisfies m cs := by
      rw [Satisfies, List.forall_mem_cons, hb.iff_eq, Satisfies]
    rw [allHold, hholds, hsat]
    cases b with
    | false => exact ⟨false, rfl, by simp⟩
    | true => simpa using ih hcs

/-- The digits of a number make every constraint true. -/
def Hit (vars : List (String × Nat)) (constraints : List Term) (code : Nat) : Prop :=
  Satisfies (Model.ofList (assignment vars code)) constraints

/-- A search finds the first hit, if there is one. -/
theorem search_spec
    (hdec : ∀ code, ∀ c ∈ constraints, ∃ b, c.Decides (Model.ofList (assignment vars code)) b)
    (count code : Nat) :
    (search vars constraints count code = .ok .unsat ∧
      ∀ k, code ≤ k → k < code + count → ¬ Hit vars constraints k) ∨
    ∃ k, search vars constraints count code = .ok (.sat (assignment vars k)) ∧
      code ≤ k ∧ k < code + count ∧ Hit vars constraints k ∧
      ∀ j, code ≤ j → j < k → ¬ Hit vars constraints j := by
  induction count generalizing code with
  | zero => exact Or.inl ⟨rfl, fun k hle hlt => absurd hlt (by omega)⟩
  | succ count ih =>
    obtain ⟨b, hb, hiff⟩ := allHold_spec (hdec code)
    unfold search
    simp only [hb]
    cases b with
    | true =>
      refine Or.inr ⟨code, rfl, Nat.le_refl _, by omega, hiff.1 rfl, fun j hle hlt => ?_⟩
      exact absurd hlt (by omega)
    | false =>
      have hmiss : ¬ Hit vars constraints code := fun hit => Bool.false_ne_true (hiff.2 hit)
      rcases ih (code + 1) with ⟨heq, hnone⟩ | ⟨k, heq, hle, hlt, hit, hfirst⟩
      · refine Or.inl ⟨heq, fun k hle hlt => ?_⟩
        rcases Nat.eq_or_lt_of_le hle with rfl | hlt'
        · exact hmiss
        · exact hnone k hlt' (by omega)
      · refine Or.inr ⟨k, heq, by omega, by omega, hit, fun j hle' hlt' => ?_⟩
        rcases Nat.eq_or_lt_of_le hle' with rfl | hlt''
        · exact hmiss
        · exact hfirst j hlt'' hlt'

/-! ## What an assignment satisfies -/

theorem satisfies_of_allHold (h : allHold m constraints = .ok true) : Satisfies m constraints := by
  induction constraints with
  | nil => exact List.forall_mem_nil _
  | cons c cs ih =>
    rw [allHold] at h
    split at h
    · rename_i hholds
      have hdecides : c.Decides m true := by
        unfold Term.holds at hholds
        split at hholds
        · rename_i heval
          obtain rfl := Except.ok.inj hholds
          exact heval
        · cases hholds
        · cases hholds
        · cases hholds
      exact List.forall_mem_cons.2 ⟨hdecides, ih h⟩
    · rename_i hother
      exact absurd h hother

theorem satisfies_of_search {count code : Nat}
    (h : search vars constraints count code = .ok (.sat pairs)) :
    Satisfies (Model.ofList pairs) constraints := by
  induction count generalizing code with
  | zero => cases h
  | succ count ih =>
    unfold search at h
    dsimp only at h
    split at h
    · rename_i hall
      obtain rfl := Verdict.sat.inj (Except.ok.inj h)
      exact satisfies_of_allHold hall
    · exact ih h
    · cases h

/-- An assignment that is answered makes every constraint true. -/
theorem satisfies_of_check {maxBits : Nat} (h : check maxBits constraints = .ok (.sat pairs)) :
    Satisfies (Model.ofList pairs) constraints := by
  unfold check at h
  dsimp only at h
  split at h
  · cases h
  · split at h
    · cases h
    · exact satisfies_of_search h

/-! ## The answer -/

/-- An assignment makes every constraint true, and none that does comes
before it. -/
structure Least (vars pairs : List (String × Nat)) (constraints : List Term) : Prop where
  binds : Binds vars pairs
  satisfies : Satisfies (Model.ofList pairs) constraints
  le : ∀ other, Binds vars other → Satisfies (Model.ofList other) constraints →
    rank vars pairs ≤ rank vars other

/-- What a verdict says is so. -/
structure Answers (maxBits : Nat) (vars : List (String × Nat)) (constraints : List Term)
    (verdict : Verdict) : Prop where
  unknown_iff : verdict = .unknown ↔ min maxBits 127 < totalBits vars
  sat_iff : totalBits vars ≤ min maxBits 127 →
    ((∃ pairs, verdict = .sat pairs) ↔ ∃ m, Satisfies m constraints)
  unsat_iff : totalBits vars ≤ min maxBits 127 →
    (verdict = .unsat ↔ ¬ ∃ m, Satisfies m constraints)
  least : ∀ pairs, verdict = .sat pairs → Least vars pairs constraints

theorem search_answers (maxBits : Nat) (hsort : ∀ c ∈ constraints, c.HasSort .bool)
    (hvars : Lists vars constraints) (hbits : totalBits vars ≤ min maxBits 127) :
    ∃ verdict, search vars constraints (Word.size (totalBits vars)) 0 = .ok verdict ∧
      Answers maxBits vars constraints verdict := by
  have hmax : totalBits vars ≤ Word.maxBits :=
    hbits.trans ((Nat.min_le_right _ _).trans (by decide))
  have hw : ∀ p ∈ vars, p.2 ≤ Word.maxBits := fun p hp => (width_le_totalBits hp).trans hmax
  have hdec := fun code => (binds_assignment hw code).exists_decides hsort hvars
  -- An assignment that makes the constraints true is a hit within the range.
  have hhit : ∀ other, Binds vars other → Satisfies (Model.ofList other) constraints →
      Hit vars constraints (rank vars other) := by
    intro other hother hsat
    rwa [Hit, assignment_rank hw hother]
  rw [Word.size_eq hmax]
  rcases search_spec hdec (2 ^ totalBits vars) 0 with ⟨heq, hnone⟩ | ⟨k, heq, -, hlt, hit, hfirst⟩
  · have hunsat : ¬ ∃ m, Satisfies m constraints := by
      rintro ⟨m, hm⟩
      obtain ⟨pairs, hpairs, hsat⟩ := hm.exists_binds hsort hvars hw
      refine hnone _ (Nat.zero_le _) ?_ (hhit pairs hpairs hsat)
      rw [Nat.zero_add]
      exact rank_lt hpairs
    refine ⟨.unsat, heq, ?_, fun _ => ?_, fun _ => ?_, ?_⟩
    · exact iff_of_false nofun (Nat.not_lt.2 hbits)
    · exact iff_of_false nofun hunsat
    · exact iff_of_true rfl hunsat
    · exact nofun
  · have hsat : ∃ m, Satisfies m constraints := ⟨_, hit⟩
    refine ⟨.sat (assignment vars k), heq, ?_, fun _ => ?_, fun _ => ?_, ?_⟩
    · exact iff_of_false nofun (Nat.not_lt.2 hbits)
    · exact iff_of_true ⟨_, rfl⟩ hsat
    · exact iff_of_false nofun (not_not_intro hsat)
    · rintro pairs ⟨⟩
      refine ⟨binds_assignment hw k, hit, fun other hother hsat => ?_⟩
      rw [Nat.zero_add] at hlt
      rw [rank_assignment hw hlt]
      by_contra hbefore
      exact hfirst _ (Nat.zero_le _) (Nat.lt_of_not_le hbefore) (hhit other hother hsat)

/-! ## The order of the constraints -/

variable {others : List Term}

theorem Lists.congr (h : Lists vars constraints) (hsame : ∀ c, c ∈ others ↔ c ∈ constraints) :
    Lists vars others where
  mem_iff := by
    intro p
    simp only [h.mem_iff, hsame]
  sorted := h.sorted

/-- Only one list of the variables is in order. -/
theorem Lists.unique {vars' : List (String × Nat)} (h : Lists vars constraints)
    (h' : Lists vars' constraints) : vars = vars' := by
  have hmem : ∀ p, p ∈ vars ↔ p ∈ vars' := fun p => (h.mem_iff p).trans (h'.mem_iff p).symm
  have hperm : vars.Perm vars' := (List.perm_ext_iff_of_nodup h.nodup h'.nodup).2 hmem
  refine hperm.eq_of_pairwise (fun p q _ _ hlt hgt => ?_) h.sorted h'.sorted
  exact absurd hgt (List.lt_asymm hlt)

theorem search_congr (hsame : ∀ c, c ∈ others ↔ c ∈ constraints)
    (hdec : ∀ code, ∀ c ∈ constraints, ∃ b, c.Decides (Model.ofList (assignment vars code)) b)
    (count code : Nat) : search vars others count code = search vars constraints count code := by
  induction count generalizing code with
  | zero => rfl
  | succ count ih =>
    obtain ⟨b, hb, hiff⟩ := allHold_spec (hdec code)
    obtain ⟨b', hb', hiff'⟩ := allHold_spec fun c hc => hdec code c ((hsame c).1 hc)
    have hsat : b' = b := by
      rw [Bool.eq_iff_iff, hiff, hiff']
      exact forall_congr' fun c => imp_congr_left (hsame c)
    rw [search, search]
    simp only [hb, hb', hsat, ih]

theorem OneWidth.congr (h : OneWidth constraints) (hsame : ∀ c, c ∈ others ↔ c ∈ constraints) :
    OneWidth others :=
  fun c hc d hd => h c ((hsame c).1 hc) d ((hsame d).1 hd)

/-- The answer does not depend on the order of the constraints, or on how
often one is repeated. -/
theorem check_congr (maxBits : Nat) (hsort : ∀ c ∈ constraints, c.HasSort .bool)
    (hwidth : OneWidth constraints) (hsame : ∀ c, c ∈ others ↔ c ∈ constraints) :
    check maxBits others = check maxBits constraints := by
  have hvars := lists_freeVars hwidth
  have heq : freeVars others = freeVars constraints :=
    (lists_freeVars (hwidth.congr hsame)).unique (hvars.congr hsame)
  rw [check, check, heq]
  split
  · rfl
  · split
    · rfl
    · rename_i hbits
      have hmax : totalBits (freeVars constraints) ≤ Word.maxBits :=
        (Nat.not_lt.1 hbits).trans ((Nat.min_le_right _ _).trans (by decide))
      have hw : ∀ p ∈ freeVars constraints, p.2 ≤ Word.maxBits :=
        fun p hp => (width_le_totalBits hp).trans hmax
      exact search_congr hsame
        (fun code => (binds_assignment hw code).exists_decides hsort hvars) _ 0

/-- Well-formed constraints are answered without a fault. -/
theorem check_answers (maxBits : Nat) (hsort : ∀ c ∈ constraints, c.HasSort .bool)
    (hwidth : OneWidth constraints) (hfits : totalBits (freeVars constraints) < 2 ^ 32) :
    ∃ verdict, check maxBits constraints = .ok verdict ∧
      Answers maxBits (freeVars constraints) constraints verdict := by
  have hlimit : ¬ Build.widthLimit ≤ totalBits (freeVars constraints) := Nat.not_le.2 hfits
  rw [check, if_neg hlimit]
  split
  · rename_i hbits
    refine ⟨.unknown, rfl, iff_of_true rfl hbits, ?_, ?_, nofun⟩
    · exact fun hle => absurd hbits (Nat.not_lt.2 hle)
    · exact fun hle => absurd hbits (Nat.not_lt.2 hle)
  · rename_i hbits
    exact search_answers maxBits hsort (lists_freeVars hwidth) (Nat.not_lt.1 hbits)

/-- Enumeration decides well-formed constraints.  It does not fail, it gives
up only on too many bits, and otherwise it answers with the least assignment
that makes the constraints true, if any model does. -/
theorem check_decides (maxBits : Nat) (hsort : ∀ c ∈ constraints, c.HasSort .bool)
    (hwidth : OneWidth constraints) (hfits : totalBits (freeVars constraints) < 2 ^ 32) :
    Lists (freeVars constraints) constraints ∧
    (∃ verdict, check maxBits constraints = .ok verdict ∧
      Answers maxBits (freeVars constraints) constraints verdict) ∧
    ∀ others : List Term, (∀ c, c ∈ others ↔ c ∈ constraints) →
      check maxBits others = check maxBits constraints :=
  ⟨lists_freeVars hwidth, check_answers maxBits hsort hwidth hfits,
    fun _ hsame => check_congr maxBits hsort hwidth hsame⟩

/-- The least assignment that puts `b` below `a`. -/
theorem check_decides_below :
    let below : List Term := [.compare .ult (.var "b" 2) (.var "a" 2)]
    check 20 below = .ok (.sat [("a", 1), ("b", 0)]) ∧
      Least (freeVars below) [("a", 1), ("b", 0)] below := by
  intro below
  have hcheck : check 20 below = .ok (.sat [("a", 1), ("b", 0)]) := by decide +kernel
  have hsort : ∀ c ∈ below, c.HasSort .bool := by
    intro c hc
    rw [List.mem_singleton.1 hc]
    exact .compare .ult (.var "b" (by decide) (by decide)) (.var "a" (by decide) (by decide))
  have hwidth : OneWidth below := by
    intro c hc d hd p hp q hq _
    rw [List.mem_singleton.1 hc] at hp
    rw [List.mem_singleton.1 hd] at hq
    simp only [Term.occurrences, List.cons_append, List.nil_append, List.mem_cons,
      List.not_mem_nil, or_false] at hp hq
    rcases hp with rfl | rfl <;> rcases hq with rfl | rfl <;> rfl
  have hfits : totalBits (freeVars below) < 2 ^ 32 := by decide +kernel
  obtain ⟨-, ⟨verdict, hverdict, hanswers⟩, -⟩ := check_decides 20 hsort hwidth hfits
  have heq : verdict = .sat [("a", 1), ("b", 0)] := Except.ok.inj (hverdict.symm.trans hcheck)
  exact ⟨hcheck, hanswers.least _ heq⟩

end SymLift.Solver
