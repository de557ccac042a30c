import Mathlib.Data.List.Nodup
import SymLift.Json

/-!
# Records in JSON

A record is written as an object and read back by the names of its parts.

* `record?_obj`: a record with fields of different names is read back, in
  whatever order it is asked for its parts.
* `depth_lt_of_record?`: the parts of a record nest less deep than the
  record.
* `depthOfItems_le_iff` and `depth_obj`: the depth of a compound value, from
  those of its members.
-/

namespace SymLift.Json

variable {fields : List (String × Json)} {names : List String} {values items parts : List Json}
  {name : String} {value j : Json} {d : Nat}

/-! ## Looking up a field -/

theorem namedFields?_obj (fields : List (String × Json)) :
    namedFields? (fields.map fun (name, value) => (some name, value)) = some fields := by
  induction fields with
  | nil => rfl
  | cons field fields ih =>
    rw [List.map_cons, namedFields?, ih]
    rfl

theorem mem_of_namedFields? {raw : List (Option String × Json)}
    (h : namedFields? raw = some fields) (hmem : (name, value) ∈ fields) :
    (some name, value) ∈ raw := by
  induction raw generalizing fields with
  | nil =>
    cases h
    exact absurd hmem List.not_mem_nil
  | cons field raw ih =>
    obtain ⟨key, first⟩ := field
    cases key with
    | none => cases h
    | some key =>
      obtain ⟨rest, hrest, rfl⟩ := Option.map_eq_some_iff.1 h
      rcases List.mem_cons.1 hmem with hfirst | hmem
      · cases hfirst
        exact List.mem_cons_self
      · exact List.mem_cons_of_mem _ (ih hrest hmem)

theorem mem_valuesOf_iff : value ∈ valuesOf name fields ↔ (name, value) ∈ fields := by
  rw [valuesOf, List.mem_filterMap]
  constructor
  · rintro ⟨⟨other, v⟩, hmem, hname⟩
    dsimp only at hname
    split at hname
    · rename_i heq
      cases hname
      exact heq ▸ hmem
    · cases hname
  · intro hmem
    exact ⟨_, hmem, if_pos rfl⟩

theorem length_valuesOf (name : String) (fields : List (String × Json)) :
    (valuesOf name fields).length = (fields.map Prod.fst).count name := by
  induction fields with
  | nil => rfl
  | cons field fields ih =>
    rw [valuesOf, List.filterMap_cons, List.map_cons, List.count_cons, ← ih]
    dsimp only
    by_cases h : field.1 = name
    · rw [if_pos h, beq_iff_eq.2 h]
      rfl
    · rw [if_neg h, beq_eq_false_iff_ne.2 h]
      rfl

theorem field?_eq_some (hnodup : (fields.map Prod.fst).Nodup) (hmem : (name, value) ∈ fields) :
    field? fields name = some value := by
  have hone : (valuesOf name fields).length = 1 := by
    rw [length_valuesOf]
    exact List.count_eq_one_of_mem hnodup (List.mem_map_of_mem hmem)
  obtain ⟨v, hv⟩ := List.length_eq_one_iff.1 hone
  have hvalue := mem_valuesOf_iff.2 hmem
  rw [hv, List.mem_singleton] at hvalue
  rw [field?, hv, hvalue]

theorem mem_of_field? (h : field? fields name = some value) : (name, value) ∈ fields := by
  rw [field?] at h
  split at h
  · rename_i v hv
    cases h
    rw [← mem_valuesOf_iff, hv]
    exact List.mem_singleton_self _
  · cases h

/-! ## Records -/

theorem mapM_of_zip {α β : Type} {f : α → Option β} {xs : List α} {ys : List β}
    (hlength : xs.length = ys.length) (h : ∀ p ∈ xs.zip ys, f p.1 = some p.2) :
    xs.mapM f = some ys := by
  induction xs generalizing ys with
  | nil =>
    rw [List.length_eq_zero_iff.1 hlength.symm]
    rfl
  | cons x xs ih =>
    obtain ⟨y, ys, rfl⟩ := List.exists_cons_of_length_eq_add_one hlength.symm
    obtain ⟨hx, hxs⟩ := List.forall_mem_cons.1 h
    rw [List.mapM_cons, hx, ih (Nat.succ.inj hlength) hxs]
    rfl

theorem exists_of_mem_mapM_some {α β : Type} {f : α → Option β} {xs : List α} {ys : List β} {y : β}
    (h : xs.mapM f = some ys) (hy : y ∈ ys) : ∃ x ∈ xs, f x = some y := by
  induction xs generalizing ys with
  | nil =>
    cases h
    exact absurd hy List.not_mem_nil
  | cons x xs ih =>
    rw [List.mapM_cons] at h
    simp only [Option.bind_eq_bind, Option.bind_eq_some_iff] at h
    obtain ⟨first, hfirst, rest, hrest, hys⟩ := h
    cases hys
    rcases List.mem_cons.1 hy with rfl | hy
    · exact ⟨x, List.mem_cons_self, hfirst⟩
    · obtain ⟨x', hx', hf⟩ := ih hrest hy
      exact ⟨x', List.mem_cons_of_mem _ hx', hf⟩

/-- An object with different names has the parts that stand in it. -/
theorem record?_obj (hnodup : (fields.map Prod.fst).Nodup) (hlength : names.length = values.length)
    (hfields : names.zip values ⊆ fields) : (obj fields).record? names = some values := by
  rw [obj, record?, namedFields?_obj]
  exact mapM_of_zip hlength fun p hp => field?_eq_some hnodup (hfields hp)

/-! ## Depth -/

theorem depthOfItems_le_iff : depthOfItems items ≤ d ↔ ∀ item ∈ items, item.depth ≤ d := by
  induction items with
  | nil => simp [depthOfItems]
  | cons item items ih => rw [depthOfItems, Nat.max_le, ih, List.forall_mem_cons]

theorem depthOfFields_le_iff {raw : List (Option String × Json)} :
    depthOfFields raw ≤ d ↔ ∀ field ∈ raw, field.2.depth ≤ d := by
  induction raw with
  | nil => simp [depthOfFields]
  | cons field raw ih => rw [depthOfFields, Nat.max_le, ih, List.forall_mem_cons]

/-- An object nests one deeper than the deepest of its values. -/
theorem depth_obj (fields : List (String × Json)) :
    (obj fields).depth = depthOfItems (fields.map Prod.snd) + 1 := by
  have hfields : depthOfFields (fields.map fun (name, value) => (some name, value)) =
      depthOfItems (fields.map Prod.snd) := by
    induction fields with
    | nil => rfl
    | cons field fields ih => rw [List.map_cons, List.map_cons, depthOfFields, depthOfItems, ih]
  rw [obj, depth, hfields]

theorem depth_lt_of_mem_array (h : j ∈ items) : j.depth < (array items).depth := by
  rw [depth]
  exact Nat.lt_succ_of_le (depthOfItems_le_iff.1 (Nat.le_refl _) j h)

theorem depth_lt_of_mem_object {raw : List (Option String × Json)} {field : Option String × Json}
    (h : field ∈ raw) : field.2.depth < (object raw).depth := by
  rw [depth]
  exact Nat.lt_succ_of_le (depthOfFields_le_iff.1 (Nat.le_refl _) field h)

/-- The parts of a record nest less deep than the record. -/
theorem depth_lt_of_record? (h : j.record? names = some parts) (hmem : value ∈ parts) :
    value.depth < j.depth := by
  cases j with
  | array items =>
    rw [record?] at h
    split at h
    · cases h
      exact depth_lt_of_mem_array hmem
    · cases h
  | object raw =>
    rw [record?] at h
    simp only [Option.bind_eq_bind, Option.bind_eq_some_iff] at h
    obtain ⟨fields, hfields, hparts⟩ := h
    obtain ⟨name, -, hfield⟩ := exists_of_mem_mapM_some hparts hmem
    exact depth_lt_of_mem_object (mem_of_namedFields? hfields (mem_of_field? hfield))
  | null | bool | integer | real | string => cases h

/-- A record is an array or an object. -/
theorem depth_pos_of_record? (h : j.record? names = some parts) : 0 < j.depth := by
  cases j with
  | array | object =>
    rw [depth]
    exact Nat.succ_pos _
  | null | bool | integer | real | string => cases h

end SymLift.Json
