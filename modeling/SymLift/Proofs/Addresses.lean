import SymLift.ByteStore
import SymLift.Proofs.Denotation

/-!
# Addresses that constraints pin

An address is found if it is a constant, or if some constraint equates it
with one.  `load_of_resolveAddress?` says that a load through it is the load
from there, and `hasNumber_of_resolveAddress?` that this is sound: where the
constraints are true, the term evaluates to the address that was found.
-/

namespace SymLift.ByteStore

open Term

variable {m : Model} {addr t : Term} {a : Nat} {known : List Term}

/-- A constraint that pins an address equates it with a constant. -/
theorem of_pinnedBy? (h : pinnedBy? addr t = some a) :
    ∃ other, other.addressValue? = some a ∧
      (t = .compare .eq addr other ∨ t = .compare .eq other addr) := by
  rw [pinnedBy?.eq_def] at h
  split at h
  · rename_i left right
    split at h
    · rename_i value hleft
      split at hleft
      · rename_i haddr
        exact ⟨right, hleft.trans h, Or.inl (haddr ▸ rfl)⟩
      · cases hleft
    · split at h
      · rename_i haddr
        exact ⟨left, h, Or.inr (haddr ▸ rfl)⟩
      · cases h
  · cases h

theorem of_resolveAddress? (h : resolveAddress? addr known = some a) :
    addr.addressValue? = some a ∨ ∃ t ∈ known, pinnedBy? addr t = some a := by
  unfold resolveAddress? at h
  split at h
  · rename_i value hvalue
    exact Or.inl (hvalue.trans h)
  · exact Or.inr (List.exists_of_findSome?_eq_some h)

/-- An address that is found has 64 bits. -/
theorem lt_of_resolveAddress? (h : resolveAddress? addr known = some a) : a < 2 ^ 64 := by
  rcases of_resolveAddress? h with hvalue | ⟨t, -, hpinned⟩
  · exact (addressValue?_eq_some_iff.1 hvalue).2
  · obtain ⟨other, hvalue, -⟩ := of_pinnedBy? hpinned
    exact (addressValue?_eq_some_iff.1 hvalue).2

/-- A load through a term that was found somewhere is the load from there. -/
theorem load_of_resolveAddress? (s : ByteStore) {w : Nat} (h : resolveAddress? addr known = some a)
    (le : w ≤ Word.maxBits) : s.load addr w known = s.loadConcrete a w := by
  rw [load, if_neg (Nat.not_lt.2 le), h]

/-- A constant stands for its address, whatever is known. -/
theorem resolveAddress?_const (hlt : a < 2 ^ 64) (w : Nat) (known : List Term) :
    resolveAddress? (.const a w) known = some a := by
  have hvalue : (Term.const a w).addressValue? = some a := if_pos hlt
  rw [resolveAddress?, hvalue]

/-- The two sides of an equation that is true have one number. -/
theorem hasNumber_of_decides_eq {left right : Term}
    (h : (Term.compare .eq left right).Decides m true)
    (hnumber : left.HasNumber m a ∨ right.HasNumber m a) :
    left.HasNumber m a ∧ right.HasNumber m a := by
  obtain ⟨j, k, w, hj, hk, hholds⟩ := Term.hasNumber_of_decides h
  obtain rfl : j = k := beq_iff_eq.1 hholds
  rcases hnumber with hleft | hright
  · exact hleft.unique hj ▸ ⟨hj, hk⟩
  · exact hright.unique hk ▸ ⟨hj, hk⟩

/-- A term has the address that was found for it, if the constraints are
true. -/
theorem hasNumber_of_resolveAddress? (hknown : ∀ t ∈ known, t.Decides m true)
    (h : resolveAddress? addr known = some a) : addr.HasNumber m a := by
  rcases of_resolveAddress? h with hvalue | ⟨t, ht, hpinned⟩
  · exact hasNumber_const (addressValue?_eq_some_iff.1 hvalue).1
  · obtain ⟨other, hvalue, heq⟩ := of_pinnedBy? hpinned
    have hother := hasNumber_const (m := m) (addressValue?_eq_some_iff.1 hvalue).1
    have htrue := hknown t ht
    rcases heq with rfl | rfl
    · exact (hasNumber_of_decides_eq htrue (Or.inr hother)).1
    · exact (hasNumber_of_decides_eq htrue (Or.inl hother)).2

end SymLift.ByteStore
