import Mathlib.Data.List.Basic

/-! Computations that return a value, report an error or panic, and the operations on lists
and numbers that panic outside their bounds. -/

namespace ProgressiveReviewer.Library

inductive Outcome (ε α : Type) where
  | ok (value : α)
  | error (reason : ε)
  | panicked
  deriving DecidableEq, Repr

namespace Outcome

variable {ε α β : Type}

def bind (x : Outcome ε α) (next : α → Outcome ε β) : Outcome ε β :=
  match x with
  | ok value => next value
  | error reason => error reason
  | panicked => panicked

instance : Monad (Outcome ε) where
  pure := ok
  bind := bind

/-- The computation ends without a panic. -/
def Returns (x : Outcome ε α) : Prop := x ≠ panicked

instance (x : Outcome ε α) : Decidable x.Returns :=
  match x with
  | ok _ | error _ => .isTrue nofun
  | panicked => .isFalse fun h => h rfl

def ofExcept : Except ε α → Outcome ε α
  | .ok value => ok value
  | .error reason => error reason

def okOr (reason : ε) : Option α → Outcome ε α
  | some value => ok value
  | none => error reason

/-- The value of an option that is taken to hold one. -/
def expect : Option α → Outcome ε α
  | some value => ok value
  | none => panicked

/-- A difference of unsigned numbers. -/
def minus (a b : Nat) : Outcome ε Nat := if b ≤ a then ok (a - b) else panicked

/-- A number in a type that ends before the bound. -/
def within (bound n : Nat) : Outcome ε Nat := if n < bound then ok n else panicked

def slice (list : List α) (start stop : Nat) : Outcome ε (List α) :=
  if start ≤ stop ∧ stop ≤ list.length then ok ((list.take stop).drop start) else panicked

def entry (list : List α) (index : Nat) : Outcome ε α := expect list[index]?

/-- A computation for each element, until one does not give a value. -/
def collect (each : α → Outcome ε β) : List α → Outcome ε (List β)
  | [] => ok []
  | first :: rest => do
    let value ← each first
    return value :: (← collect each rest)

@[simp] theorem ok_bind {value : α} {next : α → Outcome ε β} : (ok value >>= next) = next value := rfl

@[simp] theorem error_bind {reason : ε} {next : α → Outcome ε β} :
    ((error reason : Outcome ε α) >>= next) = error reason := rfl

@[simp] theorem panicked_bind {next : α → Outcome ε β} :
    ((panicked : Outcome ε α) >>= next) = panicked := rfl

@[simp] theorem pure_eq_ok {value : α} : (pure value : Outcome ε α) = ok value := rfl

@[simp] theorem returns_ok {value : α} : (ok value : Outcome ε α).Returns := nofun

@[simp] theorem returns_error {reason : ε} : (error reason : Outcome ε α).Returns := nofun

@[simp] theorem not_returns_panicked : ¬ (panicked : Outcome ε α).Returns := fun h => h rfl

theorem bind_eq_ok {x : Outcome ε α} {next : α → Outcome ε β} {value : β} :
    (x >>= next) = ok value ↔ ∃ a, x = ok a ∧ next a = ok value := by
  cases x with
  | ok a => exact ⟨fun same => ⟨a, rfl, same⟩, fun ⟨_, got, same⟩ => by cases got; exact same⟩
  | error reason => exact ⟨nofun, nofun⟩
  | panicked => exact ⟨nofun, nofun⟩

theorem bind_eq_panicked {x : Outcome ε α} {next : α → Outcome ε β} :
    (x >>= next) = panicked ↔ x = panicked ∨ ∃ a, x = ok a ∧ next a = panicked := by
  cases x with
  | ok a =>
    refine ⟨fun same => .inr ⟨a, rfl, same⟩, ?_⟩
    rintro (none | ⟨_, got, same⟩)
    · cases none
    · cases got
      exact same
  | error reason => exact ⟨nofun, by rintro (none | ⟨_, got, _⟩) <;> contradiction⟩
  | panicked => exact ⟨fun _ => .inl rfl, fun _ => rfl⟩

theorem returns_bind {x : Outcome ε α} {next : α → Outcome ε β} :
    (x >>= next).Returns ↔ x.Returns ∧ ∀ a, x = ok a → (next a).Returns := by
  unfold Returns
  rw [ne_eq, bind_eq_panicked, not_or, not_exists]
  exact and_congr_right fun _ => forall_congr' fun a => not_and

theorem returns_ofExcept {x : Except ε α} : (ofExcept x).Returns := by
  cases x <;> exact nofun

theorem returns_okOr {reason : ε} {x : Option α} : (okOr reason x).Returns := by
  cases x <;> exact nofun

@[simp] theorem expect_some {value : α} : (expect (some value) : Outcome ε α) = ok value := rfl

theorem minus_of_le {a b : Nat} (le : b ≤ a) : (minus a b : Outcome ε Nat) = ok (a - b) := if_pos le

theorem within_of_lt {bound n : Nat} (lt : n < bound) : (within bound n : Outcome ε Nat) = ok n := if_pos lt

theorem slice_of_le {list : List α} {start stop : Nat} (le : start ≤ stop) (inside : stop ≤ list.length) :
    (slice list start stop : Outcome ε (List α)) = ok ((list.take stop).drop start) :=
  if_pos ⟨le, inside⟩

theorem entry_of_lt {list : List α} {index : Nat} (lt : index < list.length) :
    (entry list index : Outcome ε α) = ok list[index] := by
  rw [entry, List.getElem?_eq_getElem lt]
  rfl

theorem returns_collect {each : α → Outcome ε β} {list : List α} (all : ∀ a ∈ list, (each a).Returns) :
    (collect each list).Returns := by
  induction list with
  | nil => exact returns_ok
  | cons first rest ih =>
    obtain ⟨one, all⟩ := List.forall_mem_cons.mp all
    exact returns_bind.mpr ⟨one, fun _ _ => returns_bind.mpr ⟨ih all, fun _ _ => returns_ok⟩⟩

/-- A loop over a list, until one step does not give a state. -/
def fold {σ : Type} (step : σ → α → Outcome ε σ) : List α → σ → Outcome ε σ
  | [], s => ok s
  | first :: rest, s => step s first >>= fold step rest

/-- The first element that is not good is stuck. -/
def StopsAt (good stuck : α → Prop) (list : List α) : Prop :=
  ∃ before a after, list = before ++ a :: after ∧ (∀ b ∈ before, good b) ∧ stuck a

theorem collect_eq_map {each : α → Outcome ε β} {value : α → β} {list : List α}
    (all : ∀ a ∈ list, each a = ok (value a)) : collect each list = ok (list.map value) := by
  induction list with
  | nil => rfl
  | cons first rest ih =>
    obtain ⟨one, all⟩ := List.forall_mem_cons.mp all
    rw [collect, one, ih all]
    rfl

section Fold

variable {σ : Type} {step : σ → α → Outcome ε σ} {good stuck : α → Prop} {list : List α} {s : σ}

theorem stopsAt_cons {first : α} {rest : List α} :
    StopsAt good stuck (first :: rest) ↔ stuck first ∨ good first ∧ StopsAt good stuck rest := by
  constructor
  · rintro ⟨before, a, after, same, all, stops⟩
    match before with
    | [] =>
      obtain ⟨rfl, rfl⟩ := List.cons.inj same
      exact .inl stops
    | b :: before =>
      obtain ⟨rfl, rfl⟩ := List.cons.inj same
      obtain ⟨one, all⟩ := List.forall_mem_cons.mp all
      exact .inr ⟨one, before, a, after, rfl, all, stops⟩
  · rintro (stops | ⟨one, before, a, after, rfl, all, stops⟩)
    · exact ⟨[], first, rest, rfl, nofun, stops⟩
    · exact ⟨first :: before, a, after, rfl, List.forall_mem_cons.mpr ⟨one, all⟩, stops⟩

theorem stopsAt_map {f : β → α} {list : List β} :
    StopsAt good stuck (list.map f) ↔ StopsAt (fun b => good (f b)) (fun b => stuck (f b)) list := by
  induction list with
  | nil =>
    constructor <;> rintro ⟨before, a, after, none, -⟩ <;> exact absurd none (by simp)
  | cons first rest ih => rw [List.map_cons, stopsAt_cons, stopsAt_cons, ih]

/-- A loop panics where an element is stuck that only good ones precede. -/
theorem returns_fold (goes : ∀ a ∈ list, ∀ s, good a → ∃ s', step s a = ok s')
    (stops : ∀ a ∈ list, ∀ s, stuck a → step s a = panicked)
    (cases : ∀ a ∈ list, ∀ s, good a ∨ stuck a ∨ ∃ reason, step s a = error reason) :
    (fold step list s).Returns ↔ ¬ StopsAt good stuck list := by
  induction list generalizing s with
  | nil =>
    refine ⟨fun _ => ?_, fun _ => returns_ok⟩
    rintro ⟨before, a, after, none, -⟩
    exact absurd none (by simp)
  | cons first rest ih =>
    obtain ⟨goes, goesOn⟩ := List.forall_mem_cons.mp goes
    obtain ⟨stops, stopsOn⟩ := List.forall_mem_cons.mp stops
    obtain ⟨cases, casesOn⟩ := List.forall_mem_cons.mp cases
    rw [stopsAt_cons]
    unfold fold
    rcases cases s with isGood | isStuck | ⟨reason, refused⟩
    · obtain ⟨s', run⟩ := goes s isGood
      have free : ¬ stuck first := fun isStuck => by cases run.symm.trans (stops s isStuck)
      rw [run, ok_bind, ih goesOn stopsOn casesOn]
      simp [isGood, free]
    · rw [stops s isStuck]
      exact ⟨fun returns => absurd rfl returns, fun free => absurd (.inl isStuck) free⟩
    · have free : ¬ stuck first := fun isStuck => by cases refused.symm.trans (stops s isStuck)
      have bad : ¬ good first := fun isGood => by
        obtain ⟨s', run⟩ := goes s isGood
        cases refused.symm.trans run
      rw [refused, error_bind]
      simp [free, bad]

theorem returns_fold_of (all : ∀ a ∈ list, ∀ s, (step s a).Returns) : (fold step list s).Returns := by
  induction list generalizing s with
  | nil => exact returns_ok
  | cons first rest ih =>
    obtain ⟨one, all⟩ := List.forall_mem_cons.mp all
    exact returns_bind.mpr ⟨one s, fun _ _ => ih all⟩

theorem good_of_fold (stops : ∀ a ∈ list, ∀ s, stuck a → step s a = panicked)
    (cases : ∀ a ∈ list, ∀ s, good a ∨ stuck a ∨ ∃ reason, step s a = error reason) {s' : σ}
    (run : fold step list s = ok s') : ∀ a ∈ list, good a := by
  induction list generalizing s with
  | nil => exact nofun
  | cons first rest ih =>
    obtain ⟨stops, stopsOn⟩ := List.forall_mem_cons.mp stops
    obtain ⟨cases, casesOn⟩ := List.forall_mem_cons.mp cases
    obtain ⟨s'', one, later⟩ := bind_eq_ok.mp run
    refine List.forall_mem_cons.mpr ⟨?_, ih stopsOn casesOn later⟩
    rcases cases s with isGood | isStuck | ⟨reason, refused⟩
    · exact isGood
    · cases one.symm.trans (stops s isStuck)
    · cases one.symm.trans refused

end Fold

end Outcome

/-- The parts of a list that hold this many elements, without what is left. -/
def chunksExact {α : Type} (size : Nat) (list : List α) : List (List α) :=
  (List.range (list.length / size)).map fun i => (list.drop (i * size)).take size

theorem length_chunk {α : Type} {size : Nat} {list chunk : List α} (mem : chunk ∈ chunksExact size list) :
    chunk.length = size := by
  obtain ⟨i, inside, rfl⟩ := List.mem_map.mp mem
  have fits : (i + 1) * size ≤ list.length :=
    Nat.le_trans (Nat.mul_le_mul_right _ (List.mem_range.mp inside)) (Nat.div_mul_le_self _ _)
  rw [Nat.succ_mul] at fits
  rw [List.length_take, List.length_drop]
  omega

/-- The windows of a list with their indices. -/
def windows {α : Type} (size : Nat) (list : List α) : List (List α) :=
  (List.range (list.length + 1 - size)).map fun i => (list.drop i).take size

end ProgressiveReviewer.Library
