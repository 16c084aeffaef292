import ProgressiveReviewer.Library.Failing

/-! Programs that leave the state as it was when they fail: checks may come in any order
before the first write, and what is written last cannot fail. -/

namespace ProgressiveReviewer.Library

variable {ε σ τ α β : Type}

/-- What a run gives, without the state a failed one leaves. -/
def gives (x : EStateM ε σ α) (s : σ) : Except ε (α × σ) :=
  match x s with
  | .ok a s' => .ok (a, s')
  | .error e _ => .error e

theorem gives_eq_ok {x : EStateM ε σ α} {s s' : σ} {a : α} :
    gives x s = .ok (a, s') ↔ x s = .ok a s' := by
  unfold gives
  cases x s <;> simp

theorem succeeds_iff {x : EStateM ε σ α} {s : σ} :
    (∃ a s', x s = .ok a s') ↔ ∃ result, gives x s = .ok result :=
  ⟨fun ⟨a, s', ran⟩ => ⟨(a, s'), gives_eq_ok.mpr ran⟩,
    fun ⟨(a, s'), ran⟩ => ⟨a, s', gives_eq_ok.mp ran⟩⟩

@[simp] theorem gives_pure (a : α) (s : σ) : gives (pure a : EStateM ε σ α) s = .ok (a, s) := rfl

@[simp] theorem gives_throw (e : ε) (s : σ) : gives (throw e : EStateM ε σ α) s = .error e := rfl

@[simp] theorem gives_get_bind (f : σ → EStateM ε σ β) (s : σ) :
    gives (get >>= f) s = gives (f s) s := rfl

@[simp] theorem gives_set_bind (s s' : σ) (f : PUnit → EStateM ε σ β) :
    gives (set s' >>= f) s = gives (f ⟨⟩) s' := rfl

@[simp] theorem gives_modify_bind (write : σ → σ) (s : σ) (f : PUnit → EStateM ε σ β) :
    gives (modify write >>= f) s = gives (f ⟨⟩) (write s) := rfl

@[simp] theorem gives_modify (write : σ → σ) (s : σ) :
    gives (modify write : EStateM ε σ PUnit) s = .ok (⟨⟩, write s) := rfl

@[simp] theorem gives_found_bind (result : Except ε α) (f : α → EStateM ε σ β) (s : σ) :
    gives (found result >>= f) s = result >>= fun a => gives (f a) s := by
  cases result <;> rfl

theorem gives_bind (x : EStateM ε σ α) (f : α → EStateM ε σ β) (s : σ) :
    gives (x >>= f) s = gives x s >>= fun r => gives (f r.1) r.2 := by
  simp only [gives, Bind.bind, EStateM.bind, Except.bind]
  cases x s <;> rfl

theorem gives_ignore (x : EStateM ε σ α) (b : β) (s : σ) :
    gives (do _ ← x; return b) s = (gives x s).map fun r => (b, r.2) := by
  rw [gives_bind]
  cases gives x s <;> rfl

theorem get_bind_run (f : σ → EStateM ε σ β) (s : σ) : (get >>= f) s = f s s := rfl

/-- A check in front of a program, as a case split on it. -/
theorem found_ensure_bind {condition : Prop} [Decidable condition] {e : ε} {f : Unit → EStateM ε σ β}
    {s : σ} : (found (ensure condition e) >>= f) s = if condition then f () s else .error e s := by
  unfold ensure
  split_ifs <;> rfl

/-- The state a run leaves, whether it fails or not. -/
def stateAfter (x : EStateM ε σ α) (s : σ) : σ :=
  match x s with
  | .ok _ s' => s'
  | .error _ s' => s'

/-- A run that fails leaves the state it started from. -/
def Untouched (x : EStateM ε σ α) (s : σ) : Prop := ∀ e s', x s = .error e s' → s' = s

namespace Untouched

variable {s : σ}

theorem of_ok {x : EStateM ε σ α} {a : α} {s' : σ} (ran : x s = .ok a s') : Untouched x s := by
  intro e s'' failed
  rw [ran] at failed
  cases failed

theorem pure (a : α) : Untouched (pure a : EStateM ε σ α) s := of_ok rfl

theorem found (result : Except ε α) : Untouched (found result) s := by
  intro e s' failed
  cases result with
  | ok a => cases failed
  | error e => cases failed; rfl

/-- A check in front of a program. -/
theorem found_bind_iff {result : Except ε α} {f : α → EStateM ε σ β} :
    Untouched (Library.found result >>= f) s ↔ ∀ a, result = .ok a → Untouched (f a) s := by
  cases result with
  | ok a => exact ⟨fun rest _ same => Except.ok.inj same ▸ rest, fun rest => rest a rfl⟩
  | error e =>
    refine iff_of_true ?_ fun _ same => by cases same
    intro e' s' failed
    cases failed
    rfl

theorem found_bind {result : Except ε α} {f : α → EStateM ε σ β}
    (rest : ∀ a, result = .ok a → Untouched (f a) s) : Untouched (Library.found result >>= f) s :=
  found_bind_iff.mpr rest

theorem get_bind {f : σ → EStateM ε σ β} (rest : Untouched (f s) s) : Untouched (get >>= f) s := rest

/-- A program after which nothing fails. -/
theorem bind_of_ok {x : EStateM ε σ α} {f : α → EStateM ε σ β} (first : Untouched x s)
    (rest : ∀ a s', x s = .ok a s' → ∃ b s'', f a s' = .ok b s'') : Untouched (x >>= f) s := by
  intro e s' failed
  cases run : x s with
  | ok a t =>
    obtain ⟨b, t', ends⟩ := rest a t run
    rw [bind_ok run, ends] at failed
    cases failed
  | error e' t =>
    simp only [bind, EStateM.bind, run] at failed
    cases failed
    exact first _ _ run

/-- The value of a program that is not looked at. -/
theorem ignore_iff {x : EStateM ε σ α} {b : β} : Untouched (do _ ← x; return b) s ↔ Untouched x s := by
  refine ⟨fun keeps e s' failed => keeps e s' ?_, fun keeps => keeps.bind_of_ok fun _ s' _ => ⟨b, s', rfl⟩⟩
  simp only [bind, EStateM.bind, failed]

end Untouched

/-- Whether the checks of a program that follows a write pass decides it, unless the write
changed nothing. -/
theorem untouched_modify_bind_iff {s : σ} {write : σ → σ} {f : Unit → EStateM ε σ β}
    (rest : Untouched (f ()) (write s)) :
    Untouched (modify write >>= f) s ↔ write s = s ∨ ∃ b s', f () (write s) = .ok b s' := by
  have run : (modify write >>= f) s = f () (write s) := rfl
  constructor
  · intro keeps
    cases ends : f () (write s) with
    | ok b s' => exact .inr ⟨b, s', rfl⟩
    | error e s' =>
      have same : s' = write s := rest e s' ends
      exact .inl (same ▸ keeps e s' (run.trans ends))
  · rintro (same | ⟨b, s', ends⟩)
    · intro e s' failed
      rw [run] at failed
      exact (rest e s' failed).trans same
    · exact Untouched.of_ok (run.trans ends)

/-- A program on a part of the state. -/
def onPart (part : σ → τ) (put : σ → τ → σ) (x : EStateM ε τ α) : EStateM ε σ α := fun s =>
  match x (part s) with
  | .ok a t => .ok a (put s t)
  | .error e t => .error e (put s t)

@[simp] theorem gives_onPart (part : σ → τ) (put : σ → τ → σ) (x : EStateM ε τ α) (s : σ) :
    gives (onPart part put x) s = (gives x (part s)).map fun r => (r.1, put s r.2) := by
  simp only [gives, onPart]
  cases x (part s) <;> rfl

theorem stateAfter_onPart (part : σ → τ) (put : σ → τ → σ) (x : EStateM ε τ α) (s : σ) :
    stateAfter (onPart part put x) s = put s (stateAfter x (part s)) := by
  simp only [stateAfter, onPart]
  cases x (part s) <;> rfl

theorem Untouched.onPart {part : σ → τ} {put : σ → τ → σ} {x : EStateM ε τ α} {s : σ}
    (same : put s (part s) = s) (keeps : Untouched x (part s)) :
    Untouched (onPart part put x) s := by
  intro e s' failed
  unfold Library.onPart at failed
  split at failed
  · cases failed
  · next e' t ran =>
    cases failed
    rw [keeps _ _ ran, same]

end ProgressiveReviewer.Library
