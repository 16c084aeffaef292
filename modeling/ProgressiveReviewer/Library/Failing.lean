import Mathlib.Logic.Relation
import Mathlib.Tactic.SplitIfs

/-! Programs over a state that can fail: how a step and the rest of a program compose,
for the runs that return a value. -/

namespace ProgressiveReviewer.Library

variable {ε σ α β : Type}

/-- A value or failure that was found without touching the state. -/
def found (result : Except ε α) : EStateM ε σ α := fun s =>
  match result with
  | .ok a => .ok a s
  | .error e => .error e s

theorem bind_ok {x : EStateM ε σ α} {f : α → EStateM ε σ β} {s s' : σ} {a : α}
    (h : x s = .ok a s') : (x >>= f) s = f a s' := by
  simp [bind, EStateM.bind, h]

theorem bind_eq_ok {x : EStateM ε σ α} {f : α → EStateM ε σ β} {s s'' : σ} {b : β} :
    (x >>= f) s = .ok b s'' ↔ ∃ a s', x s = .ok a s' ∧ f a s' = .ok b s'' := by
  constructor
  · intro h
    simp only [bind, EStateM.bind] at h
    split at h
    · next a s' run => exact ⟨a, s', run, h⟩
    · cases h
  · rintro ⟨a, s', first, rest⟩
    rw [bind_ok first, rest]

@[simp] theorem pure_run (a : α) (s : σ) : (pure a : EStateM ε σ α) s = .ok a s := rfl

@[simp] theorem found_ok (a : α) (s : σ) : (found (.ok a) : EStateM ε σ α) s = .ok a s := rfl

@[simp] theorem found_ok_bind (a : α) (f : α → EStateM ε σ β) (s : σ) :
    (found (.ok a) >>= f) s = f a s := bind_ok (found_ok a s)

theorem found_eq_ok {result : Except ε α} {s s' : σ} {a : α} :
    (found result : EStateM ε σ α) s = .ok a s' ↔ result = .ok a ∧ s' = s := by
  cases result with
  | ok b => simp [found, eq_comm]
  | error e => simp [found]

theorem except_bind_eq_ok {x : Except ε α} {f : α → Except ε β} {b : β} :
    (x >>= f) = .ok b ↔ ∃ a, x = .ok a ∧ f a = .ok b := by
  cases x <;> simp [bind, Except.bind]

theorem unit_bind_eq_ok {x : Except ε Unit} {f : Unit → Except ε β} {b : β} :
    (x >>= f) = .ok b ↔ x = .ok () ∧ f () = .ok b := by
  cases x <;> simp [bind, Except.bind]

theorem except_map_eq_ok {x : Except ε α} {f : α → β} {b : β} :
    x.map f = .ok b ↔ ∃ a, x = .ok a ∧ f a = b := by
  cases x <;> simp [Except.map]

/-- Fail unless the condition holds. -/
def ensure (condition : Prop) [Decidable condition] (failure : ε) : Except ε Unit :=
  if condition then .ok () else .error failure

@[simp] theorem ensure_eq_ok {condition : Prop} [Decidable condition] {failure : ε} {u : Unit} :
    ensure condition failure = .ok u ↔ condition := by
  unfold ensure
  split_ifs with holds <;> simp [holds]

@[simp] theorem ensure_bind_eq_ok {condition : Prop} [Decidable condition] {failure : ε}
    {f : Unit → Except ε β} {b : β} :
    (ensure condition failure >>= f) = .ok b ↔ condition ∧ f () = .ok b := by
  rw [except_bind_eq_ok]
  exact ⟨fun ⟨_, holds, rest⟩ => ⟨ensure_eq_ok.mp holds, rest⟩,
    fun ⟨holds, rest⟩ => ⟨(), ensure_eq_ok.mpr holds, rest⟩⟩

theorem forM_eq_ok {check : α → Except ε Unit} {items : List α} {u : Unit} :
    items.forM check = .ok u ↔ ∀ item ∈ items, check item = .ok () := by
  induction items with
  | nil => exact ⟨fun _ _ mem => absurd mem List.not_mem_nil, fun _ => rfl⟩
  | cons first rest ih =>
    have both : (check first >>= fun _ => rest.forM check) = .ok u ↔
        check first = .ok () ∧ rest.forM check = .ok u :=
      except_bind_eq_ok.trans
        ⟨fun ⟨_, head, tail⟩ => ⟨head, tail⟩, fun ⟨head, tail⟩ => ⟨(), head, tail⟩⟩
    rw [List.forall_mem_cons, ← ih]
    exact both

/-- What holds after a program that starts in a state: one thing when it returns, another
when it fails. -/
def Leaves (x : EStateM ε σ α) (post : α → σ → Prop) (failed : ε → σ → Prop) (s : σ) : Prop :=
  match x s with
  | .ok a s' => post a s'
  | .error e s' => failed e s'

section Leaves

variable {post post' : α → σ → Prop} {failed failed' : ε → σ → Prop} {s : σ} {x : EStateM ε σ α}

@[simp] theorem leaves_pure {a : α} : Leaves (pure a : EStateM ε σ α) post failed s ↔ post a s := .rfl

@[simp] theorem leaves_throw {e : ε} : Leaves (throw e : EStateM ε σ α) post failed s ↔ failed e s :=
  .rfl

@[simp] theorem leaves_get {post : σ → σ → Prop} :
    Leaves (get : EStateM ε σ σ) post failed s ↔ post s s := .rfl

@[simp] theorem leaves_modify {f : σ → σ} {post : PUnit → σ → Prop} :
    Leaves (modify f : EStateM ε σ PUnit) post failed s ↔ post ⟨⟩ (f s) := .rfl

@[simp] theorem leaves_bind {f : α → EStateM ε σ β} {post : β → σ → Prop} :
    Leaves (x >>= f) post failed s ↔ Leaves x (fun a s => Leaves (f a) post failed s) failed s := by
  simp only [Leaves, bind, EStateM.bind]
  cases x s <;> rfl

theorem leaves_found {result : Except ε α} : Leaves (found result) post failed s ↔
    (∀ a, result = .ok a → post a s) ∧ ∀ e, result = .error e → failed e s := by
  cases result <;> simp [Leaves, found]

theorem Leaves.mono (leaves : Leaves x post failed s) (weaker : ∀ a s, post a s → post' a s)
    (failing : ∀ e s, failed e s → failed' e s) : Leaves x post' failed' s := by
  unfold Leaves at leaves ⊢
  cases run : x s with
  | ok a s' =>
    rw [run] at leaves
    exact weaker a s' leaves
  | error e s' =>
    rw [run] at leaves
    exact failing e s' leaves

theorem Leaves.both (first : Leaves x post failed s) (second : Leaves x post' failed' s) :
    Leaves x (fun a s => post a s ∧ post' a s) (fun e s => failed e s ∧ failed' e s) s := by
  unfold Leaves at first second ⊢
  cases run : x s with
  | ok a s' =>
    rw [run] at first second
    exact ⟨first, second⟩
  | error e s' =>
    rw [run] at first second
    exact ⟨first, second⟩

/-- What each element of a list keeps, the list keeps. -/
theorem leaves_forM {body : α → EStateM ε σ PUnit} {inv : σ → Prop}
    (each : ∀ a s, inv s → Leaves (body a) (fun _ => inv) failed s) {list : List α} (initial : inv s) :
    Leaves (list.forM body) (fun _ => inv) failed s := by
  induction list generalizing s with
  | nil => exact initial
  | cons first rest ih =>
    change Leaves (body first >>= fun _ => rest.forM body) _ _ s
    rw [leaves_bind]
    exact (each first s initial).mono (fun _ _ kept => ih kept) fun _ _ lost => lost

end Leaves

/-- The state a program leaves, also when it fails. -/
def stateOf : EStateM.Result ε σ α → σ
  | .ok _ s => s
  | .error _ s => s

/-- A program changes the state by steps of one kind only, also when it fails. -/
def Moves (step : σ → σ → Prop) (x : EStateM ε σ α) : Prop :=
  ∀ s, Relation.ReflTransGen step s (stateOf (x s))

section Moves

variable {step : σ → σ → Prop}

theorem Moves.bind {x : EStateM ε σ α} {f : α → EStateM ε σ β} (first : Moves step x)
    (rest : ∀ a, Moves step (f a)) : Moves step (x >>= f) := by
  intro s
  have start := first s
  simp only [Bind.bind, EStateM.bind]
  cases run : x s with
  | ok a s' =>
    rw [run] at start
    exact start.trans (rest a s')
  | error e s' =>
    rw [run] at start
    exact start

theorem moves_pure (a : α) : Moves step (pure a : EStateM ε σ α) := fun _ => .refl

theorem moves_found (result : Except ε α) : Moves step (found result : EStateM ε σ α) := by
  intro s
  cases result <;> exact .refl

theorem moves_get : Moves step (get : EStateM ε σ σ) := fun _ => .refl

theorem moves_throw (e : ε) : Moves step (throw e : EStateM ε σ α) := fun _ => .refl

theorem moves_modify {f : σ → σ} (steps : ∀ s, step s (f s)) :
    Moves step (modify f : EStateM ε σ PUnit) := fun s => .single (steps s)

/-- A program without steps leaves the state as it is. -/
theorem Moves.stays {x : EStateM ε σ α} (none : Moves (fun _ _ => False) x) (s : σ) :
    stateOf (x s) = s := by
  rcases (none s).cases_tail with same | ⟨_, _, no⟩
  · exact same
  · exact no.elim

end Moves

end ProgressiveReviewer.Library
