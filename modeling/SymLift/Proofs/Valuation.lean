import SymLift.Proofs.Denotation
import SymLift.Term.Variables

/-!
# Evaluation and the variables of a term

`Term.occurrences` lists every occurrence of a variable in a term, from left
to right, with the width that it has there.

* `HasSort.hasValue`: a well-formed term has a value of its sort under a
  model that assigns its variables, and `HasSort.exists_denotes` is the case
  of a bit-vector under a total model.
* `HasSort.eval_transfer`: a value stays what it is under another model that
  gives every variable the same low bits.
* `getElem?_collectVariables`: the width that `collectVariables` finds is
  that of the leftmost occurrence.
-/

namespace SymLift

/-- A model that assigns every name. -/
def Model.Total (m : Model) : Prop := ∀ name, ∃ value, m name = some value

/-- A model gives the variables in a list at least the numbers that another
one does, up to the bits past their widths. -/
def Model.Covers (m m' : Model) (vars : List (String × Nat)) : Prop :=
  ∀ p ∈ vars, ∀ value, m p.1 = some value →
    ∃ value', m' p.1 = some value' ∧ Word.truncate p.2 value' = Word.truncate p.2 value

namespace Term

mutual
/-- The occurrences of variables in a term, from left to right. -/
@[simp]
def occurrences : Term → List (String × Nat)
  | .const .. | .bool _ => []
  | .var name width => [(name, width)]
  | .unary _ arg | .not arg | .extract _ _ arg | .zeroExt _ arg | .signExt _ arg => arg.occurrences
  | .binary _ left right | .compare _ left right | .concat left right =>
    left.occurrences ++ right.occurrences
  | .ite cond thenArm elseArm =>
    cond.occurrences ++ (thenArm.occurrences ++ elseArm.occurrences)
  | .conj terms | .disj terms => occurrencesAll terms

/-- The occurrences of variables in a list of terms. -/
@[simp]
def occurrencesAll : List Term → List (String × Nat)
  | [] => []
  | t :: ts => t.occurrences ++ occurrencesAll ts
end

theorem mem_occurrencesAll {p : String × Nat} {terms : List Term} :
    p ∈ occurrencesAll terms ↔ ∃ t ∈ terms, p ∈ t.occurrences := by
  induction terms with
  | nil => simp
  | cons u us ih => simp [ih]

/-! ## A well-formed term has a value -/

/-- A term has a value of a sort. -/
def HasValue (m : Model) (t : Term) : TermSort → Prop
  | .bool => ∃ b, t.Decides m b
  | .bitVec w => ∃ x : BitVec w, t.Denotes m x

variable {m m' : Model} {t : Term} {s : TermSort}

/-- An if-then-else has a value if the arm that it takes has one. -/
theorem HasValue.ite_of_arm {cond thenArm elseArm : Term} {b : Bool} (hcond : cond.Decides m b)
    (harm : (if b then thenArm else elseArm).HasValue m s) (hsort : thenArm.sort = s) :
    (Term.ite cond thenArm elseArm).HasValue m s := by
  have heval : (Term.ite cond thenArm elseArm).eval m = (if b then thenArm else elseArm).eval m := by
    rw [Term.eval_ite hcond]
    cases b <;> rfl
  cases s with
  | bool =>
    obtain ⟨c, hc⟩ := harm
    exact ⟨c, heval.trans hc⟩
  | bitVec w =>
    obtain ⟨x, hx⟩ := harm
    exact ⟨x, hsort, hx.width_le, heval.trans hx.eval_eq⟩

/-- An if-then-else has a value if its arms do. -/
theorem HasValue.ite {cond thenArm elseArm : Term} (hcond : cond.HasValue m .bool)
    (hthen : thenArm.HasValue m s) (helse : elseArm.HasValue m s)
    (hsort : thenArm.sort = s) : (Term.ite cond thenArm elseArm).HasValue m s := by
  obtain ⟨b, hb⟩ := hcond
  refine HasValue.ite_of_arm hb ?_ hsort
  cases b with
  | true => exact hthen
  | false => exact helse

/-- A well-formed term has a value of its sort where its variables have
numbers. -/
theorem HasSort.hasValue (h : t.HasSort s) (hm : ∀ p ∈ t.occurrences, ∃ value, m p.1 = some value) :
    t.HasValue m s := by
  induction h with
  | const pos le lt => exact ⟨_, .const le (Word.size_eq le ▸ lt)⟩
  | bool value => exact ⟨value, decides_bool value⟩
  | @var width name pos le =>
    obtain ⟨value, hvalue⟩ := hm (name, width) (by simp)
    exact ⟨_, .var le hvalue⟩
  | unary op _ ih =>
    obtain ⟨x, hx⟩ := ih hm
    exact ⟨_, hx.unary op⟩
  | binary op _ _ ihLeft ihRight =>
    simp only [occurrences, List.forall_mem_append] at hm
    obtain ⟨x, hx⟩ := ihLeft hm.1
    obtain ⟨y, hy⟩ := ihRight hm.2
    exact ⟨_, hx.binary op hy⟩
  | compare op _ _ ihLeft ihRight =>
    simp only [occurrences, List.forall_mem_append] at hm
    obtain ⟨x, hx⟩ := ihLeft hm.1
    obtain ⟨y, hy⟩ := ihRight hm.2
    exact ⟨_, hx.compare op hy⟩
  | not _ ih =>
    obtain ⟨b, hb⟩ := ih hm
    exact ⟨_, hb.not⟩
  | conj _ ih =>
    exact connects_conj.exists_decides fun t ht =>
      ih t ht fun p hp => hm p (mem_occurrencesAll.2 ⟨t, ht, hp⟩)
  | disj _ ih =>
    exact connects_disj.exists_decides fun t ht =>
      ih t ht fun p hp => hm p (mem_occurrencesAll.2 ⟨t, ht, hp⟩)
  | ite _ hthen _ ihCond ihThen ihElse =>
    simp only [occurrences, List.forall_mem_append] at hm
    exact (ihCond hm.1).ite (ihThen hm.2.1) (ihElse hm.2.2) hthen.sort_eq
  | extract le lt _ ih =>
    obtain ⟨x, hx⟩ := ih hm
    exact ⟨_, hx.extract le lt⟩
  | concat _ _ le ihHigh ihLow =>
    simp only [occurrences, List.forall_mem_append] at hm
    obtain ⟨x, hx⟩ := ihHigh hm.1
    obtain ⟨y, hy⟩ := ihLow hm.2
    exact ⟨_, hx.concat hy le⟩
  | zeroExt _ le ih =>
    obtain ⟨x, hx⟩ := ih hm
    exact ⟨_, hx.zeroExt le⟩
  | signExt _ le ih =>
    obtain ⟨x, hx⟩ := ih hm
    exact ⟨_, hx.signExt le⟩

theorem HasSort.exists_denotes {w : Nat} (h : t.HasSort (.bitVec w)) (hm : m.Total) :
    ∃ x : BitVec w, t.Denotes m x :=
  h.hasValue fun p _ => hm p.1

/-! ## A value depends on the low bits of the variables only -/

theorem evalAll_transfer {terms : List Term} {truths : List Bool}
    (h : ∀ t ∈ terms, ∀ v, t.eval m = .ok v → t.eval m' = .ok v)
    (hv : evalAll m terms = .ok truths) : evalAll m' terms = .ok truths := by
  rw [evalAll_eq_ok_iff] at hv ⊢
  induction hv with
  | nil => exact .nil
  | @cons u c us cs hhead _ ih =>
    exact .cons (h u List.mem_cons_self _ hhead)
      (ih fun t ht => h t (List.mem_cons_of_mem u ht))

/-- A value stays what it is where the variables keep their low bits. -/
theorem HasSort.eval_transfer (h : t.HasSort s) (hm : m.Covers m' t.occurrences) {v : Value}
    (hv : t.eval m = .ok v) : t.eval m' = .ok v := by
  induction h generalizing v with
  | const | bool => exact hv
  | @var width name =>
    rw [Term.eval] at hv ⊢
    split at hv
    · rename_i value hvalue
      obtain ⟨value', hvalue', hlow⟩ := hm (name, width) (by simp) value hvalue
      dsimp only at hvalue' hlow
      rw [hvalue', ← hv, ← hlow]
    · cases hv
  | unary _ _ ih | extract _ _ _ ih | zeroExt _ _ ih | signExt _ _ ih | not _ ih =>
    simp only [Term.eval, bind_eq_ok_iff] at hv ⊢
    obtain ⟨u, hu, rest⟩ := hv
    exact ⟨u, ih hm hu, rest⟩
  | binary _ _ _ ihLeft ihRight | compare _ _ _ ihLeft ihRight | concat _ _ _ ihLeft ihRight =>
    have hleft := fun p hp => hm p (List.mem_append_left _ hp)
    have hright := fun p hp => hm p (List.mem_append_right _ hp)
    simp only [Term.eval, bind_eq_ok_iff] at hv ⊢
    obtain ⟨u, hu, word, hword, u', hu', rest⟩ := hv
    exact ⟨u, ihLeft hleft hu, word, hword, u', ihRight hright hu', rest⟩
  | conj _ ih | disj _ ih =>
    simp only [Term.eval, bind_eq_ok_iff] at hv ⊢
    obtain ⟨truths, htruths, rest⟩ := hv
    refine ⟨truths, evalAll_transfer (fun t ht v => ?_) htruths, rest⟩
    exact ih t ht fun p hp => hm p (mem_occurrencesAll.2 ⟨t, ht, hp⟩)
  | ite _ _ _ ihCond ihThen ihElse =>
    have hcond := fun p hp => hm p (List.mem_append_left _ hp)
    have hthen := fun p hp => hm p (List.mem_append_right _ (List.mem_append_left _ hp))
    have helse := fun p hp => hm p (List.mem_append_right _ (List.mem_append_right _ hp))
    simp only [Term.eval, bind_eq_ok_iff] at hv ⊢
    obtain ⟨u, hu, truth, htruth, hv⟩ := hv
    refine ⟨u, ihCond hcond hu, truth, htruth, ?_⟩
    cases truth with
    | true => exact ihThen hthen hv
    | false => exact ihElse helse hv

/-! ## The widths that are collected -/

mutual
/-- The width that is collected is that of the leftmost occurrence. -/
theorem getElem?_collectVariables (t : Term) (found : VariableMap) (name : String) :
    (t.collectVariables found)[name]? = (t.occurrences.lookup name).or found[name]? := by
  cases t with
  | const | bool => rfl
  | var n width =>
    rw [collectVariables, Std.TreeMap.getElem?_insert, occurrences, List.lookup_cons]
    by_cases h : n = name
    · simp [h]
    · have hne : (name == n) = false := beq_eq_false_iff_ne.2 (Ne.symm h)
      simp [h, hne]
  | unary _ arg | not arg | extract _ _ arg | zeroExt _ arg | signExt _ arg =>
    rw [collectVariables, occurrences, getElem?_collectVariables arg]
  | binary _ left right | compare _ left right | concat left right =>
    rw [collectVariables, occurrences, List.lookup_append, getElem?_collectVariables left,
      getElem?_collectVariables right, Option.or_assoc]
  | ite cond thenArm elseArm =>
    rw [collectVariables, occurrences, List.lookup_append, List.lookup_append,
      getElem?_collectVariables cond, getElem?_collectVariables thenArm,
      getElem?_collectVariables elseArm, Option.or_assoc, Option.or_assoc]
  | conj terms | disj terms =>
    rw [collectVariables, occurrences, getElem?_collectVariablesAll terms]

theorem getElem?_collectVariablesAll (terms : List Term) (found : VariableMap) (name : String) :
    (collectVariablesAll terms found)[name]? =
      ((occurrencesAll terms).lookup name).or found[name]? := by
  cases terms with
  | nil => rfl
  | cons t ts =>
    rw [collectVariablesAll, occurrencesAll, List.lookup_append, getElem?_collectVariables t,
      getElem?_collectVariablesAll ts, Option.or_assoc]
end

end Term

end SymLift
