import Mathlib.Logic.Basic

/-! Runs of a state under actions that may depend on the state. -/

namespace ProgressiveReviewer.Library

variable {σ α : Type*} {step : σ → α → σ} {allowed : σ → α → Prop} {start : σ}

/-- The states that runs of allowed actions reach. -/
inductive Reaches (step : σ → α → σ) (allowed : σ → α → Prop) (start : σ) : σ → Prop
  | start : Reaches step allowed start start
  | step {s : σ} (a : α) : Reaches step allowed start s → allowed s a →
      Reaches step allowed start (step s a)

/-- What holds at the start and survives every allowed action holds at every state
reached. -/
theorem Reaches.invariant {inv : σ → Prop} (initial : inv start)
    (preserved : ∀ s a, inv s → allowed s a → inv (step s a)) {s : σ}
    (reached : Reaches step allowed start s) : inv s := by
  induction reached with
  | start => exact initial
  | step a _ may ih => exact preserved _ a ih may

theorem Reaches.mono {allowed' : σ → α → Prop} (weaker : ∀ s a, allowed s a → allowed' s a) {s : σ}
    (reached : Reaches step allowed start s) : Reaches step allowed' start s := by
  induction reached with
  | start => exact .start
  | step a _ may ih => exact .step a ih (weaker _ a may)

/-- A list of actions, each allowed where it happens. -/
def AllAllowed (step : σ → α → σ) (allowed : σ → α → Prop) : σ → List α → Prop
  | _, [] => True
  | s, a :: actions => allowed s a ∧ AllAllowed step allowed (step s a) actions

instance [∀ s a, Decidable (allowed s a)] :
    ∀ s (actions : List α), Decidable (AllAllowed step allowed s actions)
  | _, [] => .isTrue trivial
  | s, a :: actions =>
    have : Decidable (AllAllowed step allowed (step s a) actions) := instDecidableAllAllowed _ actions
    inferInstanceAs (Decidable (allowed s a ∧ AllAllowed step allowed (step s a) actions))

theorem Reaches.foldl {s : σ} {actions : List α} (reached : Reaches step allowed start s)
    (may : AllAllowed step allowed s actions) :
    Reaches step allowed start (actions.foldl step s) := by
  induction actions generalizing s with
  | nil => exact reached
  | cons a actions ih => exact ih (.step a reached may.1) may.2

/-- Labelled moves, one after the other. -/
inductive Path {τ : Type*} (move : σ → τ → σ → Prop) : σ → List τ → σ → Prop
  | nil {s : σ} : Path move s [] s
  | cons {s s' s'' : σ} {label : τ} {labels : List τ} :
      move s label s' → Path move s' labels s'' → Path move s (label :: labels) s''

section Path

variable {τ : Type*} {move : σ → τ → σ → Prop} {s s' : σ} {labels : List τ}

theorem Path.single {label : τ} (moved : move s label s') : Path move s [label] s' :=
  .cons moved .nil

theorem path_nil : Path move s [] s' ↔ s' = s :=
  ⟨by rintro ⟨⟩; rfl, by rintro rfl; exact .nil⟩

theorem path_singleton {label : τ} : Path move s [label] s' ↔ move s label s' := by
  refine ⟨?_, .single⟩
  rintro (_ | ⟨moved, rest⟩)
  exact path_nil.mp rest ▸ moved

theorem Path.invariant {inv : σ → Prop} (path : Path move s labels s') (initial : inv s)
    (preserved : ∀ s s', ∀ label ∈ labels, inv s → move s label s' → inv s') : inv s' := by
  induction path with
  | nil => exact initial
  | cons moved _ ih =>
    exact ih (preserved _ _ _ List.mem_cons_self initial moved)
      fun s s' label mem => preserved s s' label (List.mem_cons_of_mem _ mem)

end Path

end ProgressiveReviewer.Library

/-! Histories, the latest first: what came after the last stop, and what held at each record. -/

namespace ProgressiveReviewer.Library

variable {ρ : Type*} {stop event : ρ → Prop} {record : ρ} {history : List ρ}

/-- Whether an event came after the last stop. -/
def Since (stop event : ρ → Prop) : List ρ → Prop
  | [] => False
  | record :: earlier => ¬ stop record ∧ (event record ∨ Since stop event earlier)

instance decidableSince [DecidablePred stop] [DecidablePred event] :
    DecidablePred (Since stop event)
  | [] => .isFalse id
  | _ :: earlier =>
    have : Decidable (Since stop event earlier) := decidableSince earlier
    inferInstanceAs (Decidable (_ ∧ (_ ∨ _)))

namespace Since

theorem cons_iff (goes : ¬ stop record) (plain : ¬ event record) :
    Since stop event (record :: history) ↔ Since stop event history :=
  ⟨fun since => since.2.resolve_left plain, fun since => ⟨goes, .inr since⟩⟩

theorem of_cons (plain : ¬ event record) (since : Since stop event (record :: history)) :
    Since stop event history := since.2.resolve_left plain

theorem exists_mem (since : Since stop event history) : ∃ record ∈ history, event record := by
  induction history with
  | nil => exact since.elim
  | cons record earlier ih =>
    rcases since.2 with here | before
    · exact ⟨record, List.mem_cons_self, here⟩
    · obtain ⟨record, mem, happened⟩ := ih before
      exact ⟨record, List.mem_cons_of_mem _ mem, happened⟩

theorem of_append {records : List ρ} (plain : ∀ record ∈ records, ¬ event record)
    (since : Since stop event (records ++ history)) : Since stop event history := by
  induction records with
  | nil => exact since
  | cons record records ih =>
    exact ih (fun later mem => plain later (List.mem_cons_of_mem _ mem))
      (since.of_cons (plain record List.mem_cons_self))

theorem append {records : List ρ} (goes : ∀ record ∈ records, ¬ stop record)
    (since : Since stop event history) : Since stop event (records ++ history) := by
  induction records with
  | nil => exact since
  | cons record records ih =>
    exact ⟨goes record List.mem_cons_self,
      .inr (ih fun later mem => goes later (List.mem_cons_of_mem _ mem))⟩

end Since

/-- A relation of each record to those before it. -/
def AtEach (P : ρ → List ρ → Prop) : List ρ → Prop
  | [] => True
  | record :: earlier => P record earlier ∧ AtEach P earlier

instance decidableAtEach {P : ρ → List ρ → Prop} [∀ record earlier, Decidable (P record earlier)] :
    DecidablePred (AtEach P)
  | [] => .isTrue trivial
  | _ :: earlier =>
    have : Decidable (AtEach P earlier) := decidableAtEach earlier
    inferInstanceAs (Decidable (_ ∧ _))

theorem AtEach.append {P : ρ → List ρ → Prop} {records : List ρ}
    (plain : ∀ record ∈ records, ∀ earlier, P record earlier) (each : AtEach P history) :
    AtEach P (records ++ history) := by
  induction records with
  | nil => exact each
  | cons record records ih =>
    exact ⟨plain record List.mem_cons_self _,
      ih fun later mem => plain later (List.mem_cons_of_mem _ mem)⟩

end ProgressiveReviewer.Library
