import SymLift.Proofs.Results
import SymLift.Summary.Basic

/-!
# Running an execution

An `Execution` on a path state has a result, which may be a failure, and
leaves a state in either case.  `Execution.runOn` is that pair, and each of
the steps that summaries are made of has one lemma here.

* `runOn_read` and `runOn_update`: what an access does, and that one that
  fails leaves the state as it was.
* `runOn_bind_of_ok` and `runOn_bind_of_error`: a step and what follows it.
* `exists_of_runOn_bind_ok` and `exists_of_runOn_read_bind_ok`: a sequence
  that succeeds is a step that succeeds, and a rest that does.
* `Atomic` says that a failure leaves the state as it was, and `Atomic.bind`
  when a sequence does: no step fails after one that changed the state.
-/

namespace SymLift.Execution

variable {α β : Type} {x : Execution α} {f : α → Execution β} {s s' s'' : PathState} {a : α}
  {b : β} {cause : Failure}

/-- What an execution does on a path state. -/
def runOn (x : Execution α) (s : PathState) : Except Failure α × PathState := x.run.run s

@[simp]
theorem runOn_pure (a : α) (s : PathState) : runOn (pure a) s = (.ok a, s) := rfl

@[simp]
theorem runOn_throw (cause : Failure) (s : PathState) :
    runOn (throw cause : Execution α) s = (.error cause, s) := rfl

@[simp]
theorem runOn_get (s : PathState) : runOn get s = (.ok s, s) := rfl

@[simp]
theorem runOn_modify (g : PathState → PathState) (s : PathState) :
    runOn (modify g) s = (.ok (), g s) := rfl

/-! ## One step after another -/

theorem runOn_bind (x : Execution α) (f : α → Execution β) (s : PathState) :
    runOn (x >>= f) s =
      match runOn x s with
      | (.ok a, s') => runOn (f a) s'
      | (.error cause, s') => (.error cause, s') := by
  change ExceptT.bindCont f (runOn x s).1 (runOn x s).2 = _
  rcases runOn x s with ⟨cause | a, s'⟩ <;> rfl

theorem runOn_bind_of_ok (h : runOn x s = (.ok a, s')) : runOn (x >>= f) s = runOn (f a) s' := by
  rw [runOn_bind, h]

theorem runOn_bind_of_error (h : runOn x s = (.error cause, s')) :
    runOn (x >>= f) s = (.error cause, s') := by
  rw [runOn_bind, h]

theorem exists_of_runOn_bind_ok (h : runOn (x >>= f) s = (.ok b, s'')) :
    ∃ a s', runOn x s = (.ok a, s') ∧ runOn (f a) s' = (.ok b, s'') := by
  rcases hx : runOn x s with ⟨cause | a, s'⟩
  · rw [runOn_bind_of_error hx] at h
    cases h
  · rw [runOn_bind_of_ok hx] at h
    exact ⟨a, s', rfl, h⟩

/-! ## Accesses to the state -/

theorem runOn_read (g : PathState → Except Failure α) (s : PathState) :
    runOn (Summary.read g) s = (g s, s) := by
  rw [Summary.read, runOn_bind_of_ok (runOn_get s)]
  cases g s with
  | ok a => rfl
  | error cause => rfl

/-- A rest that succeeds goes on from a value that could be read. -/
theorem exists_of_runOn_read_bind_ok {g : PathState → Except Failure α}
    (h : runOn (Summary.read g >>= f) s = (.ok b, s')) :
    ∃ a, g s = .ok a ∧ runOn (f a) s = (.ok b, s') := by
  obtain ⟨a, s₁, hread, h⟩ := exists_of_runOn_bind_ok h
  rw [runOn_read] at hread
  obtain ⟨hvalue, rfl⟩ := Prod.ext_iff.1 hread
  exact ⟨a, hvalue, h⟩

theorem runOn_update (g : PathState → Except Failure PathState) (s : PathState) :
    runOn (Summary.update g) s =
      match g s with
      | .ok s' => (.ok (), s')
      | .error cause => (.error cause, s) := by
  rw [Summary.update, runOn_bind_of_ok (runOn_get s)]
  cases g s with
  | ok s' => rfl
  | error cause => rfl

/-! ## Failures that change nothing -/

/-- If an execution fails, it leaves the state as it was. -/
def Atomic (x : Execution α) (s : PathState) : Prop :=
  ∀ cause s', runOn x s = (.error cause, s') → s' = s

/-- An execution does not fail. -/
def Succeeds (x : Execution α) (s : PathState) : Prop :=
  ∃ a s', runOn x s = (.ok a, s')

theorem atomic_throw (cause : Failure) (s : PathState) :
    Atomic (throw cause : Execution α) s := by
  intro cause' s' h
  cases h
  rfl

theorem atomic_read (g : PathState → Except Failure α) (s : PathState) :
    Atomic (Summary.read g) s := by
  intro cause s' h
  rw [runOn_read] at h
  exact (Prod.ext_iff.1 h).2.symm

theorem atomic_update (g : PathState → Except Failure PathState) (s : PathState) :
    Atomic (Summary.update g) s := by
  intro cause s' h
  rw [runOn_update] at h
  split at h <;> cases h
  rfl

/-- A step that is atomic, before a rest that does not fail or begins in the
same state and is atomic. -/
theorem Atomic.bind (hx : Atomic x s)
    (hf : ∀ {a s'}, runOn x s = (.ok a, s') → Succeeds (f a) s' ∨ s' = s ∧ Atomic (f a) s) :
    Atomic (x >>= f) s := by
  intro cause s'' h
  rcases hrun : runOn x s with ⟨cause' | a, s'⟩
  · rw [runOn_bind_of_error hrun] at h
    cases h
    exact hx _ _ hrun
  · rw [runOn_bind_of_ok hrun] at h
    rcases hf hrun with hok | ⟨rfl, hatomic⟩
    · obtain ⟨b, s₂, hok⟩ := hok
      cases hok.symm.trans h
    · exact hatomic cause s'' h

theorem Succeeds.bind (hx : runOn x s = (.ok a, s')) (hf : Succeeds (f a) s') :
    Succeeds (x >>= f) s := by
  obtain ⟨b, s'', hok⟩ := hf
  exact ⟨b, s'', by rw [runOn_bind_of_ok hx, hok]⟩

theorem atomic_get_bind {f : PathState → Execution β} (hf : Atomic (f s) s) :
    Atomic (get >>= f) s := by
  intro cause s' h
  rw [runOn_bind_of_ok (runOn_get s)] at h
  exact hf cause s' h

/-- A value that is read, before a rest that is atomic. -/
theorem atomic_read_bind {g : PathState → Except Failure α}
    (hf : ∀ a, g s = .ok a → Atomic (f a) s) : Atomic (Summary.read g >>= f) s := by
  refine (atomic_read g s).bind fun hrun => ?_
  rw [runOn_read] at hrun
  obtain ⟨hok, rfl⟩ := Prod.ext_iff.1 hrun
  exact .inr ⟨rfl, hf _ hok⟩

end SymLift.Execution
