import Mathlib.Data.List.Induction
import Mathlib.Data.Set.Function
import Mathlib.Order.Basic

/-! Keeping the later of two values, one source after another: the latest of all of them,
whatever their order. -/

namespace ProgressiveReviewer.Library

variable {α τ : Type*} [LinearOrder τ] (time : α → τ)

/-- A value of the set that none of the others is later than; none for the empty set. -/
structure IsLatest (values : Set α) (kept : Option α) : Prop where
  mem : ∀ value, kept = some value → value ∈ values
  latest : ∀ value ∈ values, ∃ last, kept = some last ∧ time value ≤ time last

/-- The later of the value kept so far and another one. -/
def keepLater (kept : Option α) : Option α → Option α
  | none => kept
  | some value =>
    match kept with
    | none => some value
    | some last => if time last < time value then some value else some last

namespace IsLatest

variable {time} {values more : Set α} {kept other : Option α}

theorem of_option (value : Option α) : IsLatest time { a | value = some a } value :=
  ⟨fun _ same => same, fun a same => ⟨a, same, le_rfl⟩⟩

theorem keepLater {incoming : Option α} (latest : IsLatest time values kept) :
    IsLatest time (values ∪ { a | incoming = some a }) (keepLater time kept incoming) := by
  cases incoming with
  | none => exact ⟨fun value same => .inl (latest.mem value same), fun value mem =>
      mem.elim (latest.latest value) nofun⟩
  | some value =>
    cases kept with
    | none =>
      refine ⟨fun last same => .inr same, fun earlier mem => ⟨value, rfl, ?_⟩⟩
      rcases mem with mem | same
      · obtain ⟨_, none, _⟩ := latest.latest earlier mem
        cases none
      · exact (congrArg time (Option.some.inj same)).ge
    | some last =>
      by_cases before : time last < time value
      · rw [show Library.keepLater time (some last) (some value) = some value from if_pos before]
        refine ⟨fun _ same => .inr same, fun earlier mem => ⟨value, rfl, ?_⟩⟩
        rcases mem with mem | same
        · obtain ⟨_, ⟨⟩, bound⟩ := latest.latest earlier mem
          exact bound.trans before.le
        · exact (congrArg time (Option.some.inj same)).ge
      · rw [show Library.keepLater time (some last) (some value) = some last from if_neg before]
        refine ⟨fun found same => .inl (latest.mem found same), fun earlier mem => ⟨last, rfl, ?_⟩⟩
        rcases mem with mem | same
        · obtain ⟨_, ⟨⟩, bound⟩ := latest.latest earlier mem
          exact bound
        · exact Option.some.inj same ▸ not_lt.mp before

/-- Values with different times have one latest value. -/
theorem unique (apart : Set.InjOn time values) (one : IsLatest time values kept)
    (two : IsLatest time values other) : kept = other := by
  cases kept with
  | none =>
    cases other with
    | none => rfl
    | some value =>
      obtain ⟨_, none, _⟩ := one.latest value (two.mem value rfl)
      cases none
  | some value =>
    obtain ⟨last, rfl, before⟩ := two.latest value (one.mem value rfl)
    obtain ⟨_, ⟨⟩, after⟩ := one.latest last (two.mem last rfl)
    rw [apart (one.mem value rfl) (two.mem last rfl) (before.antisymm after)]

end IsLatest

/-- The last of the values of a list with the largest time. -/
def lastMax (values : List α) : Option α :=
  values.foldl (fun kept value => match kept with
    | some last => if time value < time last then some last else some value
    | none => some value) none

theorem isLatest_lastMax (values : List α) :
    IsLatest time { a | a ∈ values } (lastMax time values) := by
  induction values using List.reverseRecOn with
  | nil => exact ⟨nofun, nofun⟩
  | append_singleton values value ih =>
    rw [lastMax, List.foldl_append, ← lastMax, List.foldl_cons, List.foldl_nil]
    have new : value ∈ values ++ [value] := List.mem_append_right _ List.mem_cons_self
    cases last : lastMax time values with
    | none =>
      refine ⟨fun _ same => Option.some.inj same ▸ new, fun earlier mem => ⟨value, rfl, ?_⟩⟩
      rcases List.mem_append.mp mem with old | one
      · obtain ⟨_, found, _⟩ := ih.latest earlier old
        cases last.symm.trans found
      · exact (congrArg time (List.mem_singleton.mp one)).le
    | some kept =>
      have bound : ∀ earlier ∈ values, time earlier ≤ time kept := fun earlier old => by
        obtain ⟨_, found, bound⟩ := ih.latest earlier old
        cases last.symm.trans found
        exact bound
      by_cases before : time value < time kept
      · simp only [before, if_true]
        refine ⟨fun found same => ?_, fun earlier mem => ⟨kept, rfl, ?_⟩⟩
        · exact List.mem_append_left _ (Option.some.inj same ▸ ih.mem kept last)
        · rcases List.mem_append.mp mem with old | one
          · exact bound earlier old
          · exact (congrArg time (List.mem_singleton.mp one)).le.trans before.le
      · simp only [before, if_false]
        refine ⟨fun _ same => Option.some.inj same ▸ new, fun earlier mem => ⟨value, rfl, ?_⟩⟩
        rcases List.mem_append.mp mem with old | one
        · exact (bound earlier old).trans (not_lt.mp before)
        · exact (congrArg time (List.mem_singleton.mp one)).le

end ProgressiveReviewer.Library
