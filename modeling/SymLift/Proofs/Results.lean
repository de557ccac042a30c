import SymLift.Failure

/-!
# Results that may fail

A chain of computations that may fail gives a value if and only if each of
them gives one.  `bind_eq_ok_iff` opens such a chain from the front, one
computation at a time, so that no proof unfolds the monad.  The result of a
computation on known inputs is checked through `all_toOption_iff` and
`any_toOption_iff`.

`OnlyFaults` says of a computation that it fails with faults only.  `Alike`
compares two results of computations that go side by side.
-/

namespace SymLift

variable {ε α β : Type}

theorem ok_bind (a : α) (f : α → Except ε β) : (Except.ok a >>= f) = f a := rfl

/-- The same for a first part that may only have a fault. -/
theorem fault_ok_bind (a : α) (f : α → Except Failure β) :
    ((liftM (Except.ok a : Except Fault α) : Except Failure α) >>= f) = f a := rfl

/-- A chain gives a value if its first part and the rest do. -/
theorem bind_eq_ok_iff {r : Except ε α} {f : α → Except ε β} {b : β} :
    (r >>= f) = .ok b ↔ ∃ a, r = .ok a ∧ f a = .ok b := by
  cases r with
  | error e => simp [bind, Except.bind]
  | ok a => simp [bind, Except.bind]

theorem Failure.ofFault_eq_ok_iff {r : Except Fault α} {a : α} :
    Failure.ofFault r = .ok a ↔ r = .ok a := by
  cases r with
  | error cause => exact ⟨nofun, nofun⟩
  | ok b => exact ⟨fun h => congrArg _ (Except.ok.inj h), fun h => congrArg _ (Except.ok.inj h)⟩

/-- The same for a first part that may only have a fault. -/
theorem fault_bind_eq_ok_iff {r : Except Fault α} {f : α → Except Failure β} {b : β} :
    ((liftM r : Except Failure α) >>= f) = .ok b ↔ ∃ a, r = .ok a ∧ f a = .ok b :=
  bind_eq_ok_iff.trans (exists_congr fun _ => and_congr_left' Failure.ofFault_eq_ok_iff)

/-- A list of computations that all succeed. -/
theorem mapM_eq_ok {f : α → Except ε β} {g : α → β} {as : List α}
    (h : ∀ a ∈ as, f a = .ok (g a)) : as.mapM f = .ok (as.map g) := by
  induction as with
  | nil => rfl
  | cons a as ih =>
    obtain ⟨ha, has⟩ := List.forall_mem_cons.1 h
    rw [List.mapM_cons, ha, ok_bind, ih has, ok_bind]
    rfl

/-- What a list of computations gives is given by one of them. -/
theorem exists_of_mem_mapM {f : α → Except ε β} {as : List α} {bs : List β} {b : β}
    (h : as.mapM f = .ok bs) (hb : b ∈ bs) : ∃ a ∈ as, f a = .ok b := by
  induction as generalizing bs with
  | nil =>
    cases h
    cases hb
  | cons a as ih =>
    rw [List.mapM_cons] at h
    obtain ⟨first, hfirst, h⟩ := bind_eq_ok_iff.1 h
    obtain ⟨rest, hrest, h⟩ := bind_eq_ok_iff.1 h
    cases h
    rcases List.mem_cons.1 hb with rfl | hb
    · exact ⟨a, List.mem_cons_self, hfirst⟩
    · obtain ⟨other, hother, hvalue⟩ := ih hrest hb
      exact ⟨other, List.mem_cons_of_mem a hother, hvalue⟩

/-! ## Checking a result -/

theorem toOption_eq_some_iff {r : Except ε α} {a : α} : r.toOption = some a ↔ r = .ok a := by
  cases r with
  | error e => simp [Except.toOption]
  | ok a => simp [Except.toOption]

theorem all_toOption_iff {r : Except ε α} {p : α → Bool} :
    r.toOption.all p = true ↔ ∀ a, r = .ok a → p a = true := by
  cases r with
  | error e => simp [Except.toOption]
  | ok a => simp [Except.toOption]

theorem any_toOption_iff {r : Except ε α} {p : α → Bool} :
    r.toOption.any p = true ↔ ∃ a, r = .ok a ∧ p a = true := by
  cases r with
  | error e => simp [Except.toOption]
  | ok a => simp [Except.toOption]

/-! ## Faults -/

/-- A computation that fails has a fault. -/
def OnlyFaults {α : Type} (r : Except Failure α) : Prop :=
  ∀ f, r = .error f → ∃ cause, f = .fault cause

namespace OnlyFaults

theorem ok (a : α) : OnlyFaults (.ok a) := nofun

theorem ofFault (r : Except Fault α) : OnlyFaults (Failure.ofFault r) := by
  intro f h
  cases r with
  | ok a => cases h
  | error cause => exact ⟨cause, (Except.error.inj h).symm⟩

theorem bind {r : Except Failure α} {g : α → Except Failure β} (h : OnlyFaults r)
    (hg : ∀ a, OnlyFaults (g a)) : OnlyFaults (r >>= g) := by
  intro f hf
  cases r with
  | ok a => exact hg a f hf
  | error cause => exact h f (congrArg _ (Except.error.inj hf))

theorem lift_bind {r : Except Fault α} {g : α → Except Failure β} (hg : ∀ a, OnlyFaults (g a)) :
    OnlyFaults ((liftM r : Except Failure α) >>= g) :=
  (ofFault r).bind hg

end OnlyFaults

/-! ## Two results -/

/-- Two results are the same failure, or values that are related. -/
inductive Alike (R : α → β → Prop) : Except ε α → Except ε β → Prop where
  | error (cause : ε) : Alike R (.error cause) (.error cause)
  | ok {a : α} {b : β} (h : R a b) : Alike R (.ok a) (.ok b)

namespace Alike

variable {γ δ : Type} {R : α → β → Prop} {S : γ → δ → Prop}

theorem bind {r : Except ε α} {r' : Except ε β} {f : α → Except ε γ} {g : β → Except ε δ}
    (h : Alike R r r') (hrest : ∀ {a b}, R a b → Alike S (f a) (g b)) :
    Alike S (r >>= f) (r' >>= g) := by
  cases h with
  | error cause => exact .error cause
  | ok hab => exact hrest hab

/-- Both results begin with the same computation. -/
theorem bind_same {r : Except ε α} {f : α → Except ε γ} {g : α → Except ε δ}
    (hrest : ∀ a, r = .ok a → Alike S (f a) (g a)) : Alike S (r >>= f) (r >>= g) := by
  cases r with
  | error cause => exact .error cause
  | ok a => exact hrest a rfl

theorem mono {T : α → β → Prop} {r : Except ε α} {r' : Except ε β} (h : Alike R r r')
    (hmono : ∀ {a b}, R a b → T a b) : Alike T r r' := by
  cases h with
  | error cause => exact .error cause
  | ok hab => exact .ok (hmono hab)

end Alike

end SymLift
