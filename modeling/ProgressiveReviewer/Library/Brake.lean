import Mathlib.Data.List.Induction

/-! A brake that stops something after a number of failures in a row. -/

namespace ProgressiveReviewer.Library

/-- What a brake hears of. -/
inductive Tally (φ : Type*)
  | failure (failure : φ)
  | success
  deriving DecidableEq, Repr

/-- The failures since the last success, and the failure that stopped it. -/
structure Brake (φ : Type*) where
  row : Nat
  stopped : Option φ
  deriving DecidableEq, Repr

namespace Brake

variable {φ : Type*} (limit : Nat)

def new : Brake φ := ⟨0, none⟩

def note (brake : Brake φ) : Tally φ → Brake φ
  | .success => { brake with row := 0 }
  | .failure failure =>
    { row := brake.row + 1
      stopped := if brake.stopped.isSome ∨ brake.row + 1 < limit then brake.stopped
        else some failure }

def after (tallies : List (Tally φ)) : Brake φ := tallies.foldl (note limit) new

/-- The failures at the end of what was heard. -/
def streak (tallies : List (Tally φ)) : Nat :=
  (tallies.reverse.takeWhile fun tally => tally matches .failure _).length

variable {limit} {tallies : List (Tally φ)} {tally : Tally φ} {failure : φ}

theorem after_append : after limit (tallies ++ [tally]) = (after limit tallies).note limit tally := by
  rw [after, List.foldl_append]
  rfl

theorem streak_append : streak (tallies ++ [tally]) =
    match tally with
    | .failure _ => streak tallies + 1
    | .success => 0 := by
  cases tally <;> simp [streak]

theorem row_after : (after limit tallies).row = streak tallies := by
  induction tallies using List.reverseRecOn with
  | nil => rfl
  | append_singleton tallies tally ih =>
    rw [after_append, streak_append]
    cases tally with
    | failure _ => exact congrArg (· + 1) ih
    | success => rfl

/-- What stopped it once stops it for good. -/
theorem stopped_foldl {brake : Brake φ} (stopped : brake.stopped.isSome = true) :
    (tallies.foldl (note limit) brake).stopped = brake.stopped := by
  induction tallies generalizing brake with
  | nil => rfl
  | cons tally tallies ih =>
    have kept : (brake.note limit tally).stopped = brake.stopped := by
      cases tally <;> simp [note, stopped]
    exact (ih (kept ▸ stopped)).trans kept

theorem stopped_append (more : List (Tally φ)) (stopped : (after limit tallies).stopped = some failure) :
    (after limit (tallies ++ more)).stopped = some failure := by
  have stops : (after limit tallies).stopped.isSome = true := by rw [stopped]; rfl
  rw [after, List.foldl_append]
  exact (stopped_foldl stops).trans stopped

/-- It is stopped by the failure that first brings the failures in a row to the limit. -/
theorem stopped_after : (after limit tallies).stopped = some failure ↔
    ∃ before rest, tallies = before ++ .failure failure :: rest ∧
      (after limit before).stopped = none ∧ limit ≤ streak before + 1 := by
  constructor
  · induction tallies using List.reverseRecOn with
    | nil => intro stopped; cases stopped
    | append_singleton tallies tally ih =>
      intro stopped
      rw [after_append] at stopped
      have earlier (stopped : (after limit tallies).stopped = some failure) :
          ∃ before rest, tallies ++ [tally] = before ++ .failure failure :: rest ∧
            (after limit before).stopped = none ∧ limit ≤ streak before + 1 := by
        obtain ⟨before, rest, rfl, running, reached⟩ := ih stopped
        exact ⟨before, rest ++ [tally], by simp, running, reached⟩
      cases tally with
      | success => exact earlier stopped
      | failure latest =>
        simp only [note, row_after] at stopped
        split_ifs at stopped with goes
        · exact earlier stopped
        · obtain rfl := Option.some.inj stopped
          simp only [not_or, Bool.not_eq_true, Option.isSome_eq_false_iff, Option.isNone_iff_eq_none,
            Nat.not_lt] at goes
          exact ⟨tallies, [], rfl, goes.1, goes.2⟩
  · rintro ⟨before, rest, rfl, running, reached⟩
    rw [← List.singleton_append, ← List.append_assoc]
    refine stopped_append rest ?_
    rw [after_append, note, row_after, running]
    simp [Nat.not_lt.mpr reached]

theorem ends_with {failures : List φ} (some : 0 < failures.length) :
    ∃ earlier latest, failures = earlier ++ [latest] :=
  ⟨_, _, (List.dropLast_concat_getLast (List.length_pos_iff.mp some)).symm⟩

theorem le_streak {n : Nat} : n ≤ streak tallies ↔
    ∃ (before : List (Tally φ)) (failures : List φ), tallies = before ++ failures.map .failure ∧ failures.length = n := by
  induction tallies using List.reverseRecOn generalizing n with
  | nil =>
    constructor
    · intro none
      exact ⟨[], [], rfl, (Nat.le_zero.mp none).symm⟩
    · rintro ⟨before, failures, empty, rfl⟩
      have : failures = [] := by simpa using (List.append_eq_nil_iff.mp empty.symm).2
      simp [this]
  | append_singleton tallies tally ih =>
    rw [streak_append]
    rcases n with - | n
    · exact ⟨fun _ => ⟨tallies ++ [tally], [], by simp, rfl⟩, fun _ => Nat.zero_le _⟩
    cases tally with
    | success =>
      refine ⟨fun absurd => (nomatch absurd), ?_⟩
      rintro ⟨before, failures, same, counted⟩
      obtain ⟨failures, latest, rfl⟩ := ends_with (by omega : 0 < failures.length)
      simp [← List.append_assoc] at same
    | failure latest =>
      rw [Nat.add_le_add_iff_right, ih]
      constructor
      · rintro ⟨before, failures, rfl, rfl⟩
        exact ⟨before, failures ++ [latest], by simp, by simp⟩
      · rintro ⟨before, failures, same, counted⟩
        obtain ⟨failures, last, rfl⟩ := ends_with (by omega : 0 < failures.length)
        rw [List.map_append, ← List.append_assoc] at same
        exact ⟨before, failures, (List.append_inj' same rfl).1, by simpa using counted⟩

/-- It stops exactly once the limit of failures came with no success between them. -/
theorem stopped_iff (some : 0 < limit) : (after limit tallies).stopped.isSome = true ↔
    ∃ (before : List (Tally φ)) (failures : List φ) (rest : List (Tally φ)), tallies = before ++ failures.map .failure ++ rest ∧
      failures.length = limit := by
  rw [Option.isSome_iff_exists]
  constructor
  · rintro ⟨failure, stopped⟩
    obtain ⟨before, rest, rfl, -, reached⟩ := stopped_after.mp stopped
    have counted : limit - 1 ≤ streak before := by omega
    obtain ⟨before, failures, rfl, counted⟩ := le_streak.mp counted
    exact ⟨before, failures ++ [failure], rest, by simp, by simp; omega⟩
  · rintro ⟨before, failures, rest, rfl, rfl⟩
    have reached : failures.length ≤ streak (before ++ failures.map .failure) :=
      le_streak.mpr ⟨before, failures, rfl, rfl⟩
    obtain ⟨earlier, latest, rfl⟩ := ends_with some
    rw [List.map_append, ← List.append_assoc, List.map_singleton] at reached ⊢
    rw [streak_append] at reached
    cases running : (after (earlier ++ [latest]).length
        (before ++ earlier.map Tally.failure)).stopped with
    | some failure =>
      exact ⟨failure, by simpa using stopped_append (.failure latest :: rest) running⟩
    | none => exact ⟨latest, stopped_after.mpr ⟨_, rest, by simp, running, reached⟩⟩

end Brake

end ProgressiveReviewer.Library
