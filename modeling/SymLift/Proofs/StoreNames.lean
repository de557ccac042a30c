import Mathlib
import SymLift.ByteStore

/-!
# The names of a byte store

A store names a variable for each byte that was never written, and one for
each load that cannot be placed.

* `readHex` reads hexadecimal digits back, so a number has digits of its own:
  `hexDigits_inj` and `hexDigits16_inj`.
* `byteName_inj`: no two bytes have one name.
* `unresolvedName_inj`: the name of a load determines its width and the digest
  of its address.
* `byteName_ne_unresolvedName`: no byte has the name of a load.
-/

namespace SymLift

/-! ## Hexadecimal digits -/

/-- The number that a hexadecimal digit stands for. -/
def hexValue (c : Char) : Nat := "0123456789abcdef".toList.idxOf c

/-- The number that hexadecimal digits stand for, after those of `start`. -/
def readHex (digits : List Char) (start : Nat) : Nat :=
  digits.foldl (fun n c => 16 * n + hexValue c) start

theorem hexValue_digitChar : ∀ d < 16, hexValue (Nat.digitChar d) = d := by decide

theorem readHex_append (digits digits' : List Char) (start : Nat) :
    readHex (digits ++ digits') start = readHex digits' (readHex digits start) :=
  List.foldl_append

theorem readHex_toDigits (n : Nat) : readHex (Nat.toDigits 16 n) 0 = n := by
  induction n using Nat.strong_induction_on with
  | _ n ih =>
    by_cases hsmall : n < 16
    · rw [Nat.toDigits_of_lt_base hsmall]
      change 16 * 0 + hexValue (Nat.digitChar n) = n
      rw [hexValue_digitChar n hsmall, Nat.mul_zero, Nat.zero_add]
    · rw [Nat.toDigits_of_base_le (by decide) (Nat.le_of_not_lt hsmall), readHex_append,
        ih (n / 16) (by omega)]
      change 16 * (n / 16) + hexValue (Nat.digitChar (n % 16)) = n
      rw [hexValue_digitChar _ (Nat.mod_lt n (by decide)), Nat.div_add_mod]

/-- Zeros in front do not change a number. -/
theorem readHex_replicate (count : Nat) : readHex (List.replicate count '0') 0 = 0 := by
  induction count with
  | zero => rfl
  | succ count ih => exact ih

theorem exists_digitChar_of_mem_toDigits {n : Nat} {c : Char} (h : c ∈ Nat.toDigits 16 n) :
    ∃ d, Nat.digitChar d = c := by
  induction n using Nat.strong_induction_on with
  | _ n ih =>
    by_cases hsmall : n < 16
    · rw [Nat.toDigits_of_lt_base hsmall, List.mem_singleton] at h
      exact ⟨n, h.symm⟩
    · rw [Nat.toDigits_of_base_le (by decide) (Nat.le_of_not_lt hsmall), List.mem_append,
        List.mem_singleton] at h
      rcases h with hhigh | hlow
      · exact ih (n / 16) (by omega) hhigh
      · exact ⟨n % 16, hlow.symm⟩

theorem hexDigits_inj {m n : Nat} (h : hexDigits m = hexDigits n) : m = n := by
  have hdigits : Nat.toDigits 16 m = Nat.toDigits 16 n := String.ofList_injective h
  rw [← readHex_toDigits m, hdigits, readHex_toDigits]

namespace ByteStore

theorem toList_hexDigits16 (n : UInt64) : (hexDigits16 n).toList =
    List.replicate (16 - (Nat.toDigits 16 n.toNat).length) '0' ++ Nat.toDigits 16 n.toNat :=
  String.toList_ofList

theorem hexDigits16_inj {m n : UInt64} (h : hexDigits16 m = hexDigits16 n) : m = n := by
  have hread : ∀ k : UInt64, readHex (hexDigits16 k).toList 0 = k.toNat := by
    intro k
    rw [toList_hexDigits16, readHex_append, readHex_replicate, readHex_toDigits]
  rw [← UInt64.toNat_inj, ← hread m, h, hread]

theorem length_hexDigits16 (n : UInt64) : (hexDigits16 n).toList.length = 16 := by
  have hlen : (Nat.toDigits 16 n.toNat).length ≤ 16 :=
    (Nat.length_toDigits_le_iff (by decide) (by decide)).2 n.toNat_lt
  rw [toList_hexDigits16, List.length_append, List.length_replicate]
  omega

/-! ## Names -/

/-- The name of the variable that stands for a byte that was never written. -/
def byteName (s : ByteStore) (addr : Nat) : String := s.name ++ "_" ++ hexDigits addr

variable {s : ByteStore}

theorem byteName_inj {m n : Nat} (h : s.byteName m = s.byteName n) : m = n :=
  hexDigits_inj ((String.append_right_inj _).1 h)

/-- The name of a load determines its width and the digest of its address. -/
theorem unresolvedName_inj {addr addr' : Term} {width width' : Nat}
    (h : s.unresolvedName addr width = s.unresolvedName addr' width') :
    addr.digest = addr'.digest ∧ width = width' := by
  have hlists := congrArg String.toList h
  simp only [unresolvedName, String.append_assoc, String.toList_append,
    List.append_cancel_left_eq] at hlists
  have hlengths := (length_hexDigits16 addr.digest).trans (length_hexDigits16 addr'.digest).symm
  obtain ⟨hdigest, hrest⟩ := List.append_inj hlists hlengths
  have hwidth : (toString width).toList = (toString width').toList := List.append_cancel_left hrest
  exact ⟨hexDigits16_inj (String.toList_inj.1 hdigest),
    Nat.repr_injective (String.toList_inj.1 hwidth)⟩

/-- A load has its name under the prefix that bytes have theirs. -/
theorem unresolvedName_eq (s : ByteStore) (addr : Term) (width : Nat) :
    s.unresolvedName addr width =
      s.name ++ "_" ++ ("sym_" ++ (hexDigits16 addr.digest ++ "_" ++ toString width)) := by
  rw [unresolvedName, show "_sym_" = "_" ++ "sym_" from rfl]
  simp only [String.append_assoc]

/-- No digit is an `s`, so no byte has the name of a load. -/
theorem byteName_ne_unresolvedName (n : Nat) (addr : Term) (width : Nat) :
    s.byteName n ≠ s.unresolvedName addr width := by
  intro h
  rw [unresolvedName_eq] at h
  have hhex := congrArg String.toList ((String.append_right_inj _).1 h)
  have hmem : 's' ∈ Nat.toDigits 16 n := by
    rw [← String.toList_ofList (l := Nat.toDigits 16 n), ← hexDigits, hhex, String.toList_append]
    exact List.mem_append_left _ List.mem_cons_self
  obtain ⟨d, hd⟩ := exists_digitChar_of_mem_toDigits hmem
  exact Nat.digitChar_ne 's' (by decide) hd

end ByteStore

end SymLift
