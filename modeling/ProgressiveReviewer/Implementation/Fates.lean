import ProgressiveReviewer.Implementation.Carrying
import ProgressiveReviewer.Implementation.Rounds

/-! The fate of each prompt of an implementation request: it is the current one of its conclusion,
or it will not be typed any more and was not received. -/

namespace ProgressiveReviewer.Implementation

open Library Prompts
open Explore hiding PromptError outcome

/-- Where a prompt is that may still reach the agent, or did. -/
inductive Place
  | unbegun
  | waiting
  /-- The courier read its flag, and its outcome is not saved. -/
  | sending
  | received

def At (courier : Courier) (id : Nat) (prompt : PromptRequest) : Place → Prop
  | .unbegun => match prompt.phase with
    | .saved | .queued | .found _ => True
    | _ => False
  | .waiting => prompt.phase = .begun ∨ prompt.queued id ∈ courier.unchecked
  | .sending => courier.thread = .typing (prompt.queued id) ∨
      ∃ result, courier.thread = .reporting (prompt.queued id) result ∧
        prompt.queued id ∈ courier.typed
  | .received => prompt.phase = .reported (.ok ())

/-- An Implement comes while the session holds the handle of each other request's prompt of its
conclusion that is being sent, and one that sends a saved request again names the latest of its
conclusion. -/
def Heeds (system : System) : Action → Prop
  | .implement request _ _ _ _ =>
    (∀ id prompt, system.requests.lookup id = some prompt → prompt.conclusion = request.conclusion →
      prompt.request.delivery ≠ request.delivery → At system.courier id prompt .sending →
        system.handle = some id) ∧
    ∀ saved, system.round.implementations.lookup request.delivery = some saved →
      saved.request = request → saved.state.mayRetry = true →
        system.round.latestImplementation request.conclusion = some saved
  | _ => True

instance (courier : Courier) (id : Nat) (prompt : PromptRequest) :
    ∀ place, Decidable (At courier id prompt place)
  | .unbegun => decidable_of_iff
      (prompt.phase = .saved ∨ prompt.phase = .queued ∨ prompt.phase.isFound = true) (by
        cases phase : prompt.phase <;> simp [At, phase, Phase.isFound])
  | .waiting => inferInstanceAs (Decidable (_ ∨ _ ∈ _))
  | .sending => decidable_of_iff (courier.thread = .typing (prompt.queued id) ∨
      courier.thread.unreported = [prompt.queued id] ∧ courier.thread.unchecked = [] ∧
        prompt.queued id ∈ courier.typed) (by
        cases thread : courier.thread <;>
          simp +contextual [At, thread, CourierThread.unreported, CourierThread.unchecked])
  | .received => inferInstanceAs (Decidable (_ = _))

instance (system : System) : ∀ action, Decidable (Heeds system action)
  | .implement _ _ _ _ _ => inferInstanceAs (Decidable
      ((∀ _ _, _ = some _ → _ → _ → _ → _) ∧ ∀ _, _ = some _ → _ → _ → _))
  | .send _ | .closed _ _ _ | .keep _ | .drop _ | .other _ | .look _ _ | .begin _ _ _
  | .sealAttempt _ _ | .refuse _ _ _ | .turnBack _ _ _ | .report _ _ _ _ | .abandon _ | .name
  | .courier _ => .isTrue trivial

/-- The attempt of a prompt is not the one its request is saved under. -/
def Superseded (round : ExploreRound) (prompt : PromptRequest) : Prop :=
  ∀ record, round.implementations.lookup prompt.request.delivery = some record →
    record.attempt ≠ prompt.attempt

/-- The prompt of the latest request of its conclusion, saved as far as it got. -/
structure Current (system : System) (id : Nat) (prompt : PromptRequest) : Prop where
  record : ∃ record, Latest system.round record ∧ record.request = prompt.request ∧
    record.attempt = prompt.attempt ∧
    (At system.courier id prompt .unbegun → record.state = .queued) ∧
    (At system.courier id prompt .waiting ∨ At system.courier id prompt .sending →
      record.state = .attempting) ∧
    (At system.courier id prompt .received → record.state = .delivered)
  last : ∀ other later, system.requests.lookup other = some later →
    later.conclusion = prompt.conclusion → other ≤ id
  held : At system.courier id prompt .unbegun ∨ At system.courier id prompt .waiting →
    id ∈ system.courier.withdrawn ∨ system.handle = some id ∨ system.command = some id

/-- A prompt that will not be typed any more, and was not received. -/
structure Done (system : System) (id : Nat) (prompt : PromptRequest) : Prop where
  unbegun : At system.courier id prompt .unbegun →
    id ∈ system.courier.withdrawn ∨ Superseded system.round prompt
  waiting : At system.courier id prompt .waiting → id ∈ system.courier.withdrawn
  sending : ¬At system.courier id prompt .sending
  received : ¬At system.courier id prompt .received

structure Inv (system : System) : Prop where
  carried : Carried system.courier system.requests system.next
  sound : Sound system.round
  names : ∀ id, system.handle = some id ∨ system.command = some id → id < system.next
  fates : ∀ id prompt, system.requests.lookup id = some prompt →
    Current system id prompt ∨ Done system id prompt

/-! ## Changes that leave a prompt its fate -/

/-- The saved round keeps what concerns the attempts but one. -/
structure Spares (round changed : ExploreRound) (attempt : String) : Prop where
  latest : ∀ record, Latest round record → record.attempt ≠ attempt → Latest changed record
  superseded : ∀ prompt, Superseded round prompt → Superseded changed prompt

theorem Kept.spares {round changed : ExploreRound} (kept : Kept round changed)
    (attempt : String) : Spares round changed attempt :=
  ⟨fun _ latest _ => kept.latest latest, fun _ superseded record saved =>
    superseded record (kept.implementations ▸ saved)⟩

theorem Restated.spares {round changed : ExploreRound} {delivery attempt : String}
    {before after : DispatchState} (restated : Restated round changed delivery attempt before after) :
    Spares round changed attempt := by
  refine ⟨fun record latest apart => ?_, fun prompt superseded record saved => ?_⟩
  · refine restated.latest_other latest fun same => ?_
    obtain ⟨named, _, saved, attempt, _⟩ := restated.record
    cases saved.symm.trans (same ▸ latest.saved)
    exact apart attempt
  · obtain ⟨earlier, held, _, _, attempt, _⟩ := restated.lookup saved
    exact attempt ▸ superseded earlier held

/-- What a step leaves of a prompt, in the same place or in none. -/
structure Framed (before after : System) (id : Nat) (prompt moved : PromptRequest) : Prop where
  request : moved.request = prompt.request
  attempt : moved.attempt = prompt.attempt
  latest : ∀ record, Latest before.round record → record.request = prompt.request →
    record.attempt = prompt.attempt → Latest after.round record
  superseded : Superseded before.round prompt → Superseded after.round prompt
  places : ∀ place, At after.courier id moved place → At before.courier id prompt place
  requests : ∀ other later, after.requests.lookup other = some later →
    later.conclusion = prompt.conclusion →
      ∃ earlier, before.requests.lookup other = some earlier ∧ earlier.conclusion = prompt.conclusion
  withdrawn : ∀ flag ∈ before.courier.withdrawn, flag ∈ after.courier.withdrawn
  held : before.handle = some id ∨ before.command = some id →
    id ∈ after.courier.withdrawn ∨ after.handle = some id ∨ after.command = some id

theorem Framed.fate {before after : System} {id : Nat} {prompt moved : PromptRequest}
    (framed : Framed before after id prompt moved)
    (fate : Current before id prompt ∨ Done before id prompt) :
    Current after id moved ∨ Done after id moved := by
  rcases fate with current | done
  · left
    obtain ⟨record, latest, request, named, queued, attempting, delivered⟩ := current.record
    have conclusion : moved.conclusion = prompt.conclusion :=
      congrArg ImplementationRequest.conclusion framed.request
    refine ⟨⟨record, framed.latest record latest request named,
      request.trans framed.request.symm, named.trans framed.attempt.symm,
      fun at_ => queued (framed.places _ at_),
      fun at_ => attempting (at_.imp (framed.places _) (framed.places _)),
      fun at_ => delivered (framed.places _ at_)⟩, fun other later saved same => ?_, fun at_ => ?_⟩
    · obtain ⟨earlier, held, same⟩ := framed.requests other later saved (same.trans conclusion)
      exact current.last other earlier held same
    · rcases current.held (at_.imp (framed.places _) (framed.places _)) with withdrawn | held
      · exact .inl (framed.withdrawn id withdrawn)
      · exact framed.held held
  · right
    refine ⟨fun at_ => ?_, fun at_ => framed.withdrawn id (done.waiting (framed.places _ at_)),
      fun at_ => done.sending (framed.places _ at_), fun at_ => done.received (framed.places _ at_)⟩
    refine (done.unbegun (framed.places _ at_)).imp (framed.withdrawn id) fun superseded record saved => ?_
    rw [framed.attempt]
    refine framed.superseded superseded record ?_
    exact framed.request ▸ saved

/-- A prompt in no place is done. -/
theorem done_of_nowhere {system : System} {id : Nat} {prompt : PromptRequest}
    (nowhere : ∀ place, ¬At system.courier id prompt place) : Done system id prompt :=
  ⟨fun at_ => absurd at_ (nowhere _), fun at_ => absurd at_ (nowhere _), nowhere _, nowhere _⟩

/-! ## Places -/

/-- The prompt has its outcome or gets it without being typed. -/
def Phase.IsOver : Phase → Prop
  | .refused _ _ | .dropped | .reported (.error _) => True
  | _ => False

theorem mem_unsettled_of_sending {courier : Courier} {id : Nat} {prompt : PromptRequest}
    (sending : At courier id prompt .sending) :
    prompt.queued id ∈ courier.thread.unreported ∧ courier.thread.unchecked = [] := by
  rcases sending with thread | ⟨result, thread, _⟩ <;> rw [thread] <;>
    exact ⟨List.mem_cons_self, rfl⟩

namespace Carried

variable {courier : Courier} {requests : SortedMap Nat PromptRequest} {next id : Nat}
  {prompt : PromptRequest}

section

variable (carried : Carried courier requests next) (found : requests.lookup id = some prompt)
include carried found

theorem handed_of_unchecked (mem : prompt.queued id ∈ courier.unchecked) :
    prompt.phase = .handed :=
  carried.phase_of_unsettled found (Courier.unchecked_sublist.subset mem)

theorem handed_of_sending (sending : At courier id prompt .sending) : prompt.phase = .handed := by
  refine carried.phase_of_unsettled found ?_
  exact List.mem_append_left _ (List.mem_append_left _ (mem_unsettled_of_sending sending).1)

/-- A prompt that is over, and that the courier never had, is nowhere. -/
theorem nowhere (waits : ¬prompt.phase.IsCarried) {phase : Phase} (over_ : phase.IsOver)
    (place : Place) : ¬At courier id { prompt with phase := phase } place := by
  intro at_
  cases place with
  | unbegun => cases phase <;> first | exact over_ | exact at_
  | waiting =>
    rcases at_ with begun | mem
    · cases begun
      exact over_
    · exact waits (carried.handed_of_unchecked found mem ▸ trivial)
  | sending => exact waits (carried.handed_of_sending found at_ ▸ trivial)
  | received =>
    cases at_
    exact over_

/-- A prompt that waits to be begun is nowhere else. -/
theorem unbegun_of_at (unbegun : At courier id prompt .unbegun) {phase : Phase}
    (still : At courier id { prompt with phase := phase } .unbegun) (place : Place)
    (at_ : At courier id { prompt with phase := phase } place) : At courier id prompt place := by
  have waits : ¬prompt.phase.IsCarried := by
    cases phase : prompt.phase <;> simp_all [At, Phase.IsCarried]
  cases place with
  | unbegun => exact unbegun
  | waiting =>
    rcases at_ with begun | mem
    · cases begun
      exact still.elim
    · exact absurd (carried.handed_of_unchecked found mem ▸ trivial) waits
  | sending => exact absurd (carried.handed_of_sending found at_ ▸ trivial) waits
  | received =>
    cases at_
    exact still.elim

end

end Carried

/-- A step of the courier, but for a look at a flag, brings no prompt of the session's to
another place. -/
theorem at_courier {system : System} {action : Prompts.Action} {id : Nat} {prompt : PromptRequest}
    (found : system.requests.lookup id = some prompt)
    (may : Courier.May system.courier action) (elsewhere : system.Elsewhere action)
    (unread : ∀ queued, action ≠ .check queued) (place : Place)
    (at_ : At (system.courier.step action) id prompt place) : At system.courier id prompt place := by
  have foreign : ∀ queued : QueuedPrompt, system.requests.lookup queued.outcome = none →
      prompt.queued id ≠ queued := by
    rintro _ absent rfl
    exact Option.some_ne_none _ (found.symm.trans absent)
  cases place with
  | unbegun | received => exact at_
  | waiting =>
    refine at_.imp_right fun mem => ?_
    cases action with
    | send queued =>
      simp only [Courier.unchecked, Courier.step, Sending.unreported, List.mem_append,
        List.mem_singleton] at mem ⊢
      exact mem.imp_right fun same => absurd same (foreign queued elsewhere.2.1.2)
    | push queued =>
      have counted : system.courier.worker = .counted queued := may.1
      simpa [Courier.unchecked, Courier.step, Sending.unreported, counted, or_assoc] using mem
    | refuse queued =>
      simp only [Courier.unchecked, Courier.step, Sending.unreported, List.append_nil] at mem ⊢
      exact List.mem_append_left _ mem
    | unqueue queued =>
      simp only [Courier.unchecked, Courier.step, Sending.unreported, List.append_nil] at mem ⊢
      exact List.mem_append_left _ mem
    | receive queued =>
      obtain ⟨receiving, head⟩ := may
      obtain ⟨rest, parcels⟩ := List.head?_eq_some_iff.mp head
      simpa [Courier.unchecked, Courier.step, CourierThread.unchecked, receiving, parcels] using mem
    | begin queued =>
      have waiting : system.courier.thread = .waiting queued := may.1
      simpa [Courier.unchecked, Courier.step, CourierThread.unchecked, waiting] using mem
    | check queued => exact absurd rfl (unread queued)
    | type | report | finish | panic =>
      simp only [Courier.unchecked, Courier.step, CourierThread.unchecked, List.nil_append] at mem ⊢
      rw [List.append_assoc]
      exact List.mem_append_right _ mem
    | close =>
      simp only [Courier.unchecked, Courier.step, CourierThread.unchecked, List.nil_append] at mem ⊢
      exact List.mem_append_right _ mem
    | withdraw | hold | release | drained => exact mem
  | sending =>
    cases action with
    | check queued => exact absurd rfl (unread queued)
    | type queued result =>
      rcases at_ with thread | ⟨_, thread, _⟩
      · cases thread
      · cases thread
        exact .inl may
    | receive | begin | report | finish | panic | close =>
      rcases at_ with thread | ⟨_, thread, _⟩ <;> cases thread
    | send | push | refuse | unqueue | withdraw | hold | release | drained => exact at_

/-! ## Steps -/

variable {system : System} {id : Nat} {prompt : PromptRequest}

theorem withdrawn_courier {courier : Courier} {action : Prompts.Action} :
    ∀ flag ∈ courier.withdrawn, flag ∈ (courier.step action).withdrawn := by
  intro flag mem
  cases action with
  | withdraw other => exact Finset.mem_insert_of_mem mem
  | _ => exact mem

/-- The prompts of a system after a step that leaves all of them. -/
theorem Inv.keep (inv : Inv system) {courier : Courier} {handle command : Option Nat}
    {round : ExploreRound} (carried : Carried courier system.requests system.next)
    (kept : Kept system.round round)
    (names : ∀ id, handle = some id ∨ command = some id → id < system.next)
    (places : ∀ id prompt, system.requests.lookup id = some prompt → ∀ place,
      At courier id prompt place → At system.courier id prompt place)
    (withdrawn : ∀ flag ∈ system.courier.withdrawn, flag ∈ courier.withdrawn)
    (held : ∀ id, system.handle = some id ∨ system.command = some id →
      id ∈ courier.withdrawn ∨ handle = some id ∨ command = some id) :
    Inv { system with round := round, handle := handle, command := command, courier := courier } where
  carried := carried
  sound := kept.sound inv.sound
  names := names
  fates id prompt found := by
    have framed : Framed system
        { system with round := round, handle := handle, command := command, courier := courier }
        id prompt prompt :=
      ⟨rfl, rfl, fun _ latest _ _ => kept.latest latest,
        (kept.spares prompt.attempt).superseded prompt, places id prompt found,
        fun other later saved same => ⟨later, saved, same⟩, withdrawn, held id⟩
    exact framed.fate (inv.fates id prompt found)

theorem inv_courier {action : Prompts.Action} (inv : Inv system)
    (may : Courier.May system.courier action) (elsewhere : system.Elsewhere action)
    (unread : ∀ queued, action ≠ .check queued) :
    Inv { system with courier := system.courier.step action } :=
  inv.keep (carried_courier inv.carried may elsewhere) .refl inv.names
    (fun _ _ found => at_courier found may elsewhere unread) withdrawn_courier fun _ => .inr

/-- The courier reads a flag: only the current prompt of a conclusion goes on to be typed. -/
theorem inv_check {queued : QueuedPrompt} (inv : Inv system)
    (may : Courier.May system.courier (.check queued)) :
    Inv { system with courier := system.courier.step (.check queued) } := by
  have begun : system.courier.thread = .begun queued := may
  have waits : queued ∈ system.courier.unchecked := by
    rw [Courier.unchecked, begun]
    exact List.mem_append_left _ (List.mem_append_left _ List.mem_cons_self)
  refine ⟨carried_courier inv.carried may trivial, inv.sound, inv.names, fun id prompt found => ?_⟩
  have unchecked : ∀ other, other ∈ (system.courier.step (.check queued)).unchecked →
      other ∈ system.courier.unchecked := fun other mem => by
    have none : (system.courier.step (.check queued)).thread.unchecked = [] := by
      rw [Courier.step]
      split_ifs <;> rfl
    rw [Courier.unchecked, none, List.nil_append] at mem
    rw [Courier.unchecked, List.append_assoc]
    exact List.mem_append_right _ mem
  by_cases typing : (system.courier.step (.check queued)).thread = .typing (prompt.queued id)
  · have own : queued = prompt.queued id ∧ id ∉ system.courier.withdrawn := by
      have typing : (if queued.isWithdrawn system.courier.withdrawn = true
        then CourierThread.reporting queued (.error .cancelled)
        else .typing queued) = .typing (prompt.queued id) := typing
      split_ifs at typing with set
      cases typing
      exact ⟨rfl, fun mem => set (decide_eq_true mem)⟩
    obtain ⟨rfl, flag⟩ := own
    rcases inv.fates id prompt found with current | done
    · left
      obtain ⟨record, latest, request, named, queued, attempting, delivered⟩ := current.record
      exact ⟨⟨record, latest, request, named, queued, fun _ => attempting (.inl (.inr waits)),
        delivered⟩, current.last, fun at_ => current.held
          (at_.imp (fun place => place) (Or.imp_right (unchecked _)))⟩
    · exact absurd (done.waiting (.inr waits)) flag
  · have framed : Framed system { system with courier := system.courier.step (.check queued) }
        id prompt prompt := by
      refine ⟨rfl, rfl, fun _ latest _ _ => latest, fun superseded => superseded, fun place at_ => ?_,
        fun other later saved same => ⟨later, saved, same⟩, fun _ mem => mem, .inr⟩
      cases place with
      | unbegun | received => exact at_
      | waiting => exact at_.imp_right (unchecked _)
      | sending =>
        rcases at_ with thread | ⟨result, thread, typed⟩
        · exact absurd thread typing
        · have thread : (if queued.isWithdrawn system.courier.withdrawn = true
            then CourierThread.reporting queued (.error .cancelled)
            else .typing queued) = .reporting (prompt.queued id) result := thread
          split_ifs at thread
          cases thread
          exact absurd waits (inv.carried.inv.not_unchecked_of_typed typed)
    exact framed.fate (inv.fates id prompt found)

theorem inv_other {round : ExploreRound} (inv : Inv system) (kept : Kept system.round round) :
    Inv { system with round := round } :=
  inv.keep inv.carried kept inv.names (fun _ _ _ _ at_ => at_) (fun _ mem => mem) fun _ => .inr

/-- The handle goes, and its prompt is withdrawn. -/
theorem inv_released {handle command : Option Nat} (inv : Inv system)
    (names : ∀ id, handle = some id ∨ command = some id → id < system.next)
    (held : ∀ id, system.command = some id → handle = some id ∨ command = some id) :
    Inv { system with handle := handle, command := command, courier := system.released } := by
  unfold System.released
  cases was : system.handle with
  | none =>
    refine inv.keep inv.carried .refl names (fun _ _ _ _ at_ => at_) (fun _ mem => mem)
      fun id at_ => .inr (held id ?_)
    rw [was] at at_
    exact at_.resolve_left nofun
  | some flag =>
    refine inv.keep (inv.carried.withdraw (inv.names flag (.inl was))) .refl names
      (fun _ _ _ _ at_ => at_) withdrawn_courier fun id at_ => ?_
    rcases at_ with same | commanded
    · cases was.symm.trans same
      exact .inl (Finset.mem_insert_self _ _)
    · exact .inr (held id commanded)

/-- One prompt moves; the others stay where they are. -/
theorem Inv.move (inv : Inv system) (found : system.requests.lookup id = some prompt)
    {courier : Courier} {round : ExploreRound} {worker : Option Nat} {phase : Phase}
    (carried : Carried courier (system.requests.insert id { prompt with phase := phase }) system.next)
    (sound : Sound round) (spares : Spares system.round round prompt.attempt)
    (places : ∀ other later, other ≠ id → system.requests.lookup other = some later → ∀ place,
      At courier other later place → At system.courier other later place)
    (withdrawn : courier.withdrawn = system.courier.withdrawn)
    (own : (∀ place, ¬At courier id { prompt with phase := phase } place) ∨
      Current { system with
        round := round, worker := worker, courier := courier
        requests := system.requests.insert id { prompt with phase := phase } }
        id { prompt with phase := phase } ∨
      Done { system with
        round := round, worker := worker, courier := courier
        requests := system.requests.insert id { prompt with phase := phase } }
        id { prompt with phase := phase }) :
    Inv { system with
      round := round, worker := worker, courier := courier
      requests := system.requests.insert id { prompt with phase := phase } } := by
  refine ⟨carried, sound, inv.names, fun other later saved => ?_⟩
  have saved' := SortedMap.lookup_insert.symm.trans saved
  split_ifs at saved' with same
  · subst same
    cases saved'
    exact own.elim (fun nowhere => .inr (done_of_nowhere nowhere)) fun fate => fate
  · refine Framed.fate ⟨rfl, rfl, fun record latest _ named => spares.latest record latest
      fun equal => same ?_, spares.superseded later, places other later (Ne.symm same) saved',
      fun another last held conclusion => ?_, fun flag mem => withdrawn ▸ mem, .inr⟩
      (inv.fates other later saved')
    · exact inv.carried.apart id prompt other later found saved' (equal.symm.trans named)
    · have held' := SortedMap.lookup_insert.symm.trans held
      split_ifs at held' with equal
      · cases held'
        exact ⟨prompt, equal ▸ found, conclusion⟩
      · exact ⟨last, held', conclusion⟩

/-- A prompt that waits to be begun goes on waiting. -/
theorem inv_unbegun {worker : Option Nat} {phase : Phase} (inv : Inv system)
    (found : system.requests.lookup id = some prompt)
    (unbegun : At system.courier id prompt .unbegun)
    (still : At system.courier id { prompt with phase := phase } .unbegun) :
    Inv { system with
      worker := worker
      requests := system.requests.insert id { prompt with phase := phase } } := by
  have waits : ¬prompt.phase.IsCarried := by
    cases phase : prompt.phase <;> simp_all [At, Phase.IsCarried]
  refine inv.move found (inv.carried.move found waits phase) inv.sound (Kept.refl.spares _)
    (fun _ _ _ _ _ at_ => at_) rfl (.inr ?_)
  have framed : Framed system { system with
      worker := worker
      requests := system.requests.insert id { prompt with phase := phase } }
      id prompt { prompt with phase := phase } := by
    refine ⟨rfl, rfl, fun _ latest _ _ => latest, fun superseded => superseded,
      inv.carried.unbegun_of_at found unbegun still, fun other later saved conclusion => ?_,
      fun _ mem => mem, .inr⟩
    have saved := SortedMap.lookup_insert.symm.trans saved
    split_ifs at saved with same
    · cases saved
      exact ⟨prompt, same ▸ found, rfl⟩
    · exact ⟨later, saved, conclusion⟩
  exact framed.fate (inv.fates id prompt found)

/-- A prompt that the courier never had is over. -/
theorem inv_over {worker : Option Nat} {phase : Phase} {round : ExploreRound} (inv : Inv system)
    (found : system.requests.lookup id = some prompt) (waits : ¬prompt.phase.IsCarried)
    (over_ : phase.IsOver) (sound : Sound round)
    (spares : Spares system.round round prompt.attempt) :
    Inv { system with
      round := round
      worker := worker
      requests := system.requests.insert id { prompt with phase := phase } } :=
  inv.move found (inv.carried.move found waits phase) sound spares (fun _ _ _ _ _ at_ => at_) rfl
    (.inl (inv.carried.nowhere found waits over_))

/-- An outcome is saved for its attempt, or not at all, and what is reported is the outcome or
unknown. -/
theorem finish_eq (system : System) (id : Nat) (prompt : PromptRequest)
    (result : Except PromptError Unit) (began : Bool) (saving : Saving) (now : Nat) :
    ∃ round reported,
      system.finish id prompt result began saving now =
        { system with round := round }.move id prompt (.reported reported) ∧
      (reported = result ∨ ∃ error, reported = .error (.unknown error)) ∧
      (Kept system.round round ∨ Restated system.round round prompt.request.delivery prompt.attempt
        (if began then .attempting else .queued) (outcome result)) ∧
      (reported = .ok () → result = .ok () ∧
        (system.round.dispatchState prompt.dispatch = some (if began then .attempting else .queued) →
          Restated system.round round prompt.request.delivery prompt.attempt
            (if began then .attempting else .queued) (outcome result))) := by
  have changes : ∀ changed revision,
      (.ok (system.round.finishDispatch ⟨prompt.dispatch, began, outcome result⟩ now) :
        Except String ExploreRound) = .ok changed → changed.revision ≤ revision →
      (Kept system.round { changed with revision := revision } ∨
        Restated system.round { changed with revision := revision } prompt.request.delivery
          prompt.attempt (if began then .attempting else .queued) (outcome result)) ∧
      (system.round.dispatchState prompt.dispatch = some (if began then .attempting else .queued) →
        Restated system.round { changed with revision := revision } prompt.request.delivery
          prompt.attempt (if began then .attempting else .queued) (outcome result)) := by
    rintro _ revision ⟨⟩ grown
    by_cases live : system.round.dispatchState prompt.dispatch =
        some (if began then .attempting else .queued)
    · have restated := (finishDispatch_live (outcome result) now live).revised grown
      exact ⟨.inr restated, fun _ => restated⟩
    · have same := finishDispatch_ended (outcome result) now live
      have implementations := congrArg ExploreRound.implementations same
      have revision := congrArg ExploreRound.revision same
      exact ⟨.inl ⟨implementations, revision.symm.le.trans grown⟩, fun now => absurd now live⟩
  unfold System.finish
  dsimp only
  split
  · next round saved =>
    refine ⟨round, result, rfl, .inl rfl, ?_⟩
    rcases save_eq saved with ⟨_, _, failed⟩ | ⟨changed, revision, ran, rfl, grown, _⟩
    · cases failed
    · obtain ⟨change, live⟩ := changes changed revision ran grown
      exact ⟨change, fun received => ⟨received, live⟩⟩
  · next error round saved =>
    refine ⟨round, _, rfl, .inr ⟨error, rfl⟩, ?_, nofun⟩
    rcases save_eq saved with ⟨rfl, _⟩ | ⟨changed, revision, ran, rfl, grown, _⟩
    · exact .inl .refl
    · exact (changes changed revision ran grown).1

theorem outcome_eq_delivered {result : Except PromptError Unit} :
    outcome result = .delivered ↔ result = .ok () := by
  rcases result with (_ | _ | _ | _ | _) | _ <;> simp [outcome, Explore.outcome, Except.mapError, observed]

theorem Restated.spares_or {round changed : ExploreRound} {before after : DispatchState}
    (change : Kept round changed ∨
      Restated round changed prompt.request.delivery prompt.attempt before after) :
    Spares round changed prompt.attempt :=
  change.elim (fun kept => kept.spares _) fun restated => restated.spares

/-- An outcome on the worker's thread: the prompt was not handed over. -/
theorem inv_refused {worker : Option Nat} {error : PromptError} {began : Bool} {saving : Saving}
    {now : Nat} (inv : Inv system) (found : system.requests.lookup id = some prompt)
    (waits : ¬prompt.phase.IsCarried) :
    Inv ({ system with worker := worker }.finish id prompt (.error error) began saving now) := by
  obtain ⟨round, reported, same, how, change, -⟩ :=
    finish_eq { system with worker := worker } id prompt (.error error) began saving now
  have over_ : (Phase.reported reported).IsOver := by
    rcases how with rfl | ⟨_, rfl⟩ <;> trivial
  have sound : Sound round := by
    rcases change with kept | restated
    · exact kept.sound inv.sound
    · refine restated.sound inv.sound fun received => ?_
      cases outcome_eq_delivered.mp received
  have ended : Inv { system with
      round := round
      worker := worker
      requests := system.requests.insert id { prompt with phase := .reported reported } } :=
    inv_over inv found waits over_ sound (Restated.spares_or change)
  exact same ▸ ended

/-- Where the saved attempt is the one that a prompt begins, so is its request. -/
theorem Current.state {record : ImplementationDelivery} (current : Current system id prompt)
    (saved : system.round.implementations.lookup prompt.request.delivery = some record) :
    Latest system.round record ∧ record.request = prompt.request ∧
      record.attempt = prompt.attempt := by
  obtain ⟨latest, is, request, named, -⟩ := current.record
  cases (request ▸ is.saved).symm.trans saved
  exact ⟨is, request, named⟩

/-- The worker begins the attempt of a prompt that is not superseded. -/
theorem inv_begin {agent : Agent} {saving : Saving} {now : Nat} (inv : Inv system)
    (found : system.requests.lookup id = some prompt) (phase : prompt.phase = .found agent) :
    Inv (system.begin id prompt saving now) := by
  have waits : ¬prompt.phase.IsCarried := by
    rw [phase]
    exact not_false
  have unbegun : At system.courier id prompt .unbegun := by
    simp only [At, phase]
  unfold System.begin
  simp only [phase]
  split
  · next round saved =>
    rcases save_eq saved with ⟨_, _, failed⟩ | ⟨changed, revision, ran, rfl, grown, _⟩
    · cases failed
    have restated := (beginDispatch_restated ran).revised grown
    refine inv.move found (inv.carried.move found waits .begun)
      (restated.sound inv.sound nofun) restated.spares (fun _ _ _ _ _ at_ => at_) rfl (.inr ?_)
    obtain ⟨record, sent, held, named, _, now⟩ := restated.record
    have sending : ¬At system.courier id { prompt with phase := .begun } .sending := fun at_ =>
      waits (inv.carried.handed_of_sending found at_ ▸ trivial)
    rcases inv.fates id prompt found with current | done
    · left
      obtain ⟨latest, request, _⟩ := current.state held
      have delivery := congrArg ImplementationRequest.delivery request
      refine ⟨⟨_, restated.latest_self latest delivery now, request, named, False.elim,
        fun _ => rfl, nofun⟩, fun other later saved same => ?_, fun _ => current.held (.inl unbegun)⟩
      have saved := SortedMap.lookup_insert.symm.trans saved
      split_ifs at saved with equal
      · exact equal.ge
      · exact current.last other later saved same
    · right
      refine ⟨False.elim, fun _ => ?_, sending, nofun⟩
      exact (done.unbegun unbegun).resolve_right fun superseded => superseded record held named
  · next error round saved =>
    have kept : Sound round ∧ Spares system.round round prompt.attempt := by
      rcases save_eq saved with ⟨rfl, _⟩ | ⟨changed, revision, ran, rfl, grown, _⟩
      · exact ⟨inv.sound, Kept.refl.spares _⟩
      · have restated := (beginDispatch_restated ran).revised grown
        exact ⟨restated.sound inv.sound nofun, restated.spares⟩
    have refused : Inv { system with
        round := round
        requests := system.requests.insert id
          { prompt with phase := .refused (.delivery error) false } } :=
      inv_over inv found waits trivial kept.1 kept.2
    exact refused

/-- A begun prompt goes to the courier. -/
theorem inv_hand {worker : Option Nat} (inv : Inv system)
    (found : system.requests.lookup id = some prompt) (phase : prompt.phase = .begun)
    (idle : system.courier.worker = .idle) :
    Inv { system with
      worker := worker
      courier := system.courier.step (.send (prompt.queued id))
      requests := system.requests.insert id { prompt with phase := .handed } } := by
  have waits : ¬prompt.phase.IsCarried := by
    rw [phase]
    exact not_false
  have unchecked : (system.courier.step (.send (prompt.queued id))).unchecked =
      system.courier.unchecked ++ [prompt.queued id] := by
    simp [Courier.unchecked, Courier.step, Sending.unreported, idle]
  refine inv.move found (inv.carried.hand found waits idle) inv.sound (Kept.refl.spares _)
    (fun other later apart found' place at_ => ?_) rfl (.inr ?_)
  · cases place with
    | unbegun | received | sending => exact at_
    | waiting =>
      refine at_.imp_right fun mem => ?_
      rw [unchecked] at mem
      refine (List.mem_append.mp mem).resolve_right fun same => apart ?_
      exact congrArg QueuedPrompt.outcome (List.mem_singleton.mp same)
  · have framed : Framed system { system with
        worker := worker
        courier := system.courier.step (.send (prompt.queued id))
        requests := system.requests.insert id { prompt with phase := .handed } }
        id prompt { prompt with phase := .handed } := by
      refine ⟨rfl, rfl, fun _ latest _ _ => latest, fun superseded => superseded, fun place at_ => ?_,
        fun other later saved conclusion => ?_, fun _ mem => mem, .inr⟩
      · cases place with
        | unbegun => exact at_.elim
        | waiting => exact .inl phase
        | sending => exact absurd (inv.carried.handed_of_sending found at_ ▸ trivial) waits
        | received => cases at_
      · have saved := SortedMap.lookup_insert.symm.trans saved
        split_ifs at saved with same
        · cases saved
          exact ⟨prompt, same ▸ found, rfl⟩
        · exact ⟨later, saved, conclusion⟩
    exact framed.fate (inv.fates id prompt found)

/-- The prompts that the courier reports or refuses are the only ones that change. -/
theorem inv_settle {result : Except PromptError Unit} {began : Bool} {saving : Saving} {now : Nat}
    {courier : Courier} (inv : Inv system) (found : system.requests.lookup id = some prompt)
    (carried : ∀ reported, (reported = result ∨ ∃ error, reported = .error (.unknown error)) →
      Carried courier (system.requests.insert id { prompt with phase := .reported reported })
        system.next)
    (places : ∀ other later, system.requests.lookup other = some later → ∀ place,
      At courier other later place → At system.courier other later place)
    (withdrawn : courier.withdrawn = system.courier.withdrawn)
    (nowhere : prompt.queued id ∉ courier.unchecked ∧ ¬At courier id prompt .sending)
    (sent : result = .ok () → began = true ∧ At system.courier id prompt .sending) :
    Inv ({ system with courier := courier }.finish id prompt result began saving now) := by
  obtain ⟨round, reported, same, how, change, received⟩ :=
    finish_eq { system with courier := courier } id prompt result began saving now
  -- Only the current prompt of a conclusion is sent.
  have current : result = .ok () → Current system id prompt := fun ok =>
    (inv.fates id prompt found).resolve_right fun done => done.sending (sent ok).2
  have sound : Sound round := by
    rcases change with kept | restated
    · exact kept.sound inv.sound
    · refine restated.sound inv.sound fun delivered record saved => ?_
      exact ((current (outcome_eq_delivered.mp delivered)).state saved).1
  have over_ : (∀ place, place ≠ .received →
      ¬At courier id { prompt with phase := .reported reported } place) := by
    intro place other at_
    cases place with
    | unbegun => exact at_
    | waiting =>
      rcases at_ with begun | mem
      · cases begun
      · exact nowhere.1 mem
    | sending => exact nowhere.2 at_
    | received => exact other rfl
  have ended : Inv { system with
      round := round
      courier := courier
      requests := system.requests.insert id { prompt with phase := .reported reported } } := by
    refine inv.move found (carried reported how) sound (Restated.spares_or change)
      (fun other later _ => places other later) withdrawn ?_
    by_cases ok : reported = .ok ()
    · right
      left
      obtain ⟨rfl, live⟩ := received ok
      obtain ⟨rfl, sending⟩ := sent rfl
      have current := current rfl
      obtain ⟨record, latest, request, named, -, attempting, -⟩ := current.record
      have delivery := congrArg ImplementationRequest.delivery request
      have restated := live (ExploreRound.dispatchState_implementation.mpr
        ⟨record, delivery ▸ latest.saved, named, attempting (.inr sending)⟩)
      obtain ⟨held, sent, saved, _, _, now⟩ := restated.record
      cases (delivery ▸ latest.saved).symm.trans saved
      refine ⟨⟨_, restated.latest_self latest delivery now, request, named,
        fun at_ => absurd at_ (over_ _ nofun),
        fun at_ => absurd at_ (not_or_intro (over_ _ nofun) (over_ _ nofun)),
        fun _ => outcome_eq_delivered.mpr rfl⟩, fun other later saved same => ?_,
        fun at_ => absurd at_ (not_or_intro (over_ _ nofun) (over_ _ nofun))⟩
      have saved := SortedMap.lookup_insert.symm.trans saved
      split_ifs at saved with equal
      · exact equal.ge
      · exact current.last other later saved same
    · left
      intro place at_
      cases place with
      | unbegun => exact over_ .unbegun nofun at_
      | waiting => exact over_ .waiting nofun at_
      | sending => exact over_ .sending nofun at_
      | received =>
        cases at_
        exact ok rfl
  exact same ▸ ended

theorem inv_report {result : Except PromptError Unit} {saving : Saving} {now : Nat}
    (inv : Inv system) (found : system.requests.lookup id = some prompt)
    (may : Courier.May system.courier (.report (prompt.queued id) result)) :
    Inv ({ system with courier := system.courier.step (.report (prompt.queued id) result) }.finish id
      prompt result true saving now) := by
  have reporting : system.courier.thread = .reporting (prompt.queued id) result := may
  refine inv_settle inv found (fun reported how => inv.carried.report found may how)
    (fun other later _ place at_ => ?_) rfl ⟨fun mem => ?_, fun at_ => ?_⟩ fun ok => ⟨rfl, ?_⟩
  · cases place with
    | unbegun | received => exact at_
    | waiting =>
      refine at_.imp_right fun mem => ?_
      simpa [Courier.unchecked, Courier.step, CourierThread.unchecked, reporting] using mem
    | sending => rcases at_ with thread | ⟨_, thread, _⟩ <;> cases thread
  · refine @Courier.Inv.not_unchecked _ (prompt.queued id) inv.carried.inv ?_ ?_ ?_
    · rw [reporting]
      exact List.mem_cons_self
    · rw [reporting]
      rfl
    · simpa [Courier.unchecked, Courier.step, CourierThread.unchecked, reporting] using mem
  · rcases at_ with thread | ⟨_, thread, _⟩ <;> cases thread
  · refine .inr ⟨result, reporting, (inv.carried.reporting _ _ reporting).mpr ?_⟩
    rw [ok]
    intro same
    cases same

theorem inv_turnBack {saving : Saving} {now : Nat} (inv : Inv system)
    (found : system.requests.lookup id = some prompt)
    (may : Courier.May system.courier (.refuse (prompt.queued id))) :
    Inv ({ system with courier := system.courier.step (.refuse (prompt.queued id)) }.finish id prompt
      (.error Courier.stoppedError) true saving now) := by
  obtain ⟨counted, stopped⟩ := may
  have places : ∀ other (later : PromptRequest) place,
      At (system.courier.step (.refuse (prompt.queued id))) other later place →
        At system.courier other later place := by
    intro other later place at_
    cases place with
    | unbegun | received | sending => exact at_
    | waiting =>
      refine at_.imp_right fun mem => ?_
      simp only [Courier.unchecked, Courier.step, Sending.unreported, List.append_nil] at mem ⊢
      exact List.mem_append_left _ mem
  refine inv_settle inv found (fun reported _ => inv.carried.turnBack found ⟨counted, stopped⟩)
    (fun other later _ => places other later) rfl ⟨fun mem => ?_, fun at_ => ?_⟩ fun ok => by cases ok
  · -- A stopped courier has no other prompts.
    have settled := inv.carried.inv.settled (prompt.queued id)
    have := inv.carried.inv.count_le_one (prompt.queued id)
    have waits := List.count_pos_iff.mpr mem
    simp only [Courier.unsettled, Courier.unchecked, Courier.step, Sending.unreported, counted,
      stopped, CourierThread.unchecked, CourierThread.unreported, List.count_append, List.nil_append,
      List.append_nil, List.count_singleton_self] at settled waits
    omega
  · rcases places id prompt .sending at_ with thread | ⟨_, thread, _⟩ <;>
      cases stopped.symm.trans thread

/-- Once a request is admitted, no earlier prompt of its conclusion goes on to the agent. -/
theorem fate_of_admits {request : ImplementationRequest} {attempt : String} {round : ExploreRound}
    {record : ImplementationDelivery} {requests : SortedMap Nat PromptRequest} {next : Nat}
    {command : Option Nat} (inv : Inv system) (found : system.requests.lookup id = some prompt)
    (commanded : system.command = none) (named : prompt.attempt ≠ attempt)
    (sending : prompt.conclusion = request.conclusion → prompt.request.delivery ≠ request.delivery →
      At system.courier id prompt .sending → system.handle = some id)
    (free : isHeld system.round request system.handle.isSome = false)
    (admits : Admits system.round round request attempt record)
    (others : ∀ other later, requests.lookup other = some later →
      later.conclusion ≠ request.conclusion → system.requests.lookup other = some later) :
    let after := { system with round := round, command := command, requests := requests, next := next }
    Current after id prompt ∨ Done after id prompt := by
  intro after
  have superseded : Superseded system.round prompt → Superseded round prompt :=
    fun was later saved => by
      rcases admits.of_other saved with ⟨rfl, _⟩ | ⟨_, held⟩
      · exact fun same => named (same.symm.trans admits.fresh)
      · exact was later held
  by_cases own : prompt.conclusion = request.conclusion
  · right
    rcases inv.fates id prompt found with current | done
    · obtain ⟨saved, latest, asked, attempted, queued, attempting, delivered⟩ := current.record
      have delivery := congrArg ImplementationRequest.delivery asked
      -- A request that is sent again takes a new attempt; another one finds the conclusion free.
      by_cases again : saved.request.delivery = request.delivery
      · have retry : saved.state.mayRetry = true := by
          rcases admits.authorized with ⟨none, _⟩ | ⟨previous, held, _, retry, _⟩
          · cases none.symm.trans (again ▸ latest.saved)
          · cases held.symm.trans (again ▸ latest.saved)
            exact retry
        have idle : ¬(At system.courier id prompt .waiting ∨ At system.courier id prompt .sending) :=
          fun at_ => by
            rw [attempting at_] at retry
            cases retry
        refine ⟨fun _ => .inr fun later held => ?_, fun at_ => absurd (.inl at_) idle,
          fun at_ => idle (.inr at_), fun at_ => ?_⟩
        · rw [← delivery, again, admits.lookup_self] at held
          cases held
          exact fun same => named (same.symm.trans admits.fresh)
        · rw [delivered at_] at retry
          cases retry
      · obtain ⟨unreceived, unsent⟩ := of_not_held inv.sound.toOrdered free latest
          ((congrArg ImplementationRequest.conclusion asked).trans own) again
        have unheld : saved.state = .queued ∨ saved.state = .attempting → system.handle = none :=
          fun state => Option.isNone_iff_eq_none.mp (by simpa using unsent state)
        have withdrawn : At system.courier id prompt .unbegun ∨ At system.courier id prompt .waiting →
            id ∈ system.courier.withdrawn := fun at_ => by
          have none := unheld (at_.imp queued fun at_ => attempting (.inl at_))
          refine (current.held at_).resolve_right fun held => ?_
          rw [none, commanded] at held
          exact held.elim nofun nofun
        refine ⟨fun at_ => .inl (withdrawn (.inl at_)), fun at_ => withdrawn (.inr at_),
          fun at_ => ?_, fun at_ => unreceived (delivered at_)⟩
        cases (sending own (delivery ▸ again) at_).symm.trans (unheld (.inr (attempting (.inr at_))))
    · exact ⟨fun at_ => (done.unbegun at_).imp_right superseded, done.waiting, done.sending,
        done.received⟩
  · have framed : Framed system after id prompt prompt := by
      refine ⟨rfl, rfl, fun saved latest asked _ => admits.latest_other latest ?_, superseded,
        fun _ at_ => at_, fun other later held conclusion => ⟨later, others other later held ?_,
          conclusion⟩, fun _ mem => mem, fun held => ?_⟩
      · exact fun same => own ((congrArg ImplementationRequest.conclusion asked).symm.trans same)
      · exact fun same => own (conclusion.symm.trans same)
      · rw [commanded] at held
        exact .inr (.inl (held.resolve_right nofun))
    exact framed.fate (inv.fates id prompt found)

theorem inv_implement {request : ImplementationRequest} {agent attempt : String} {saving : Saving}
    {ready : Bool} (inv : Inv system)
    (may : system.May (.implement request ready agent attempt saving))
    (heeds : Heeds system (.implement request ready agent attempt saving)) :
    Inv (system.implement request agent attempt saving) := by
  obtain ⟨commanded, fresh⟩ := may
  obtain ⟨held, latest⟩ := heeds
  have sound : ∀ {round record}, isHeld system.round request system.handle.isSome = false →
      Admits system.round round request attempt record → Sound round := by
    intro round record free admits
    refine admits.sound inv.sound fun saved latest same received => ?_
    by_cases again : saved.request.delivery = request.delivery
    · rcases admits.authorized with ⟨none, _⟩ | ⟨previous, held, _, retry, _⟩
      · cases none.symm.trans (again ▸ latest.saved)
      · cases held.symm.trans (again ▸ latest.saved)
        rw [received] at retry
        cases retry
    · exact (of_not_held inv.sound.toOrdered free latest same again).1 received
  unfold System.implement
  split
  · next error round saved =>
    rcases admitted_admits saved with ⟨rfl, _⟩ | ⟨free, record, admits⟩
    · exact inv
    · exact ⟨inv.carried, sound free admits, inv.names, fun id prompt found =>
        fate_of_admits inv found commanded (fresh id prompt found) (held id prompt found) free admits
          fun _ _ saved _ => saved⟩
  · next round saved =>
    rcases admitted_admits saved with ⟨_, _, failed⟩ | ⟨free, record, admits⟩
    · cases failed
    · have below : ∀ other later, system.requests.lookup other = some later → other < system.next :=
        inv.carried.given
      refine ⟨inv.carried.insert_new fresh, sound free admits, fun id at_ => ?_,
        fun id prompt found => ?_⟩
      · rcases at_ with handle | new
        · exact Nat.lt_succ_of_lt (inv.names id (.inl handle))
        · cases new
          exact Nat.lt_succ_self _
      · have found' := SortedMap.lookup_insert.symm.trans found
        split_ifs at found' with same
        · subst same
          cases found'
          have nowhere : ∀ queued ∈ system.courier.handed, queued.outcome ≠ system.next :=
            fun queued mem same => Nat.lt_irrefl _ (same ▸ (inv.carried.handed queued mem).1)
          have unsettled : ∀ queued ∈ system.courier.unsettled, queued.outcome ≠ system.next :=
            fun queued mem => nowhere queued (inv.carried.inv.handed_of_unsettled mem)
          have last := admits.latest inv.sound.toOrdered fun previous saved retry => by
            rcases admits.authorized with ⟨none, _⟩ | ⟨again, held, same, _⟩
            · cases none.symm.trans saved
            · cases held.symm.trans saved
              exact ((latestImplementation_eq_some inv.sound.toOrdered).mp
                (latest previous saved same retry)).1
          left
          refine ⟨⟨record, last, admits.asked, admits.fresh, fun _ => admits.state, ?_, nofun⟩,
            fun other later saved _ => ?_, fun _ => .inr (.inr rfl)⟩
          · rintro ((begun | mem) | at_)
            · cases begun
            · exact absurd rfl (unsettled _ (Courier.unchecked_sublist.subset mem))
            · refine absurd rfl (unsettled _ (List.mem_append_left _ (List.mem_append_left _
                (mem_unsettled_of_sending at_).1)))
          · have saved := SortedMap.lookup_insert.symm.trans saved
            split_ifs at saved with same
            · exact same.ge
            · exact (below other later saved).le
        · refine fate_of_admits inv found' commanded (fresh id prompt found') (held id prompt found')
            free admits fun other later saved apart => ?_
          have saved := SortedMap.lookup_insert.symm.trans saved
          split_ifs at saved
          · cases saved
            exact absurd rfl apart
          · exact saved

theorem inv_name (inv : Inv system) : Inv { system with next := system.next + 1 } where
  carried := inv.carried.next_name
  sound := inv.sound
  names id at_ := Nat.lt_succ_of_lt (inv.names id at_)
  fates id prompt found := by
    have framed : Framed system { system with next := system.next + 1 } id prompt prompt :=
      ⟨rfl, rfl, fun _ latest _ _ => latest, fun superseded => superseded, fun _ at_ => at_,
        fun _ later saved conclusion => ⟨later, saved, conclusion⟩, fun _ mem => mem, .inr⟩
    exact framed.fate (inv.fates id prompt found)

theorem withPrompt_eq {act : PromptRequest → System}
    (found : system.requests.lookup id = some prompt) : system.withPrompt id act = act prompt := by
  simp only [System.withPrompt, found]

theorem uncarried_of_phase {phase : Phase} (same : prompt.phase = phase) (waits : ¬phase.IsCarried) :
    ¬prompt.phase.IsCarried := same ▸ waits

theorem inv_look {found : Except String (Option Agent)} (inv : Inv system)
    (saved : system.requests.lookup id = some prompt) (queued : prompt.phase = .queued) :
    Inv (system.look id prompt found) := by
  have waits := uncarried_of_phase queued not_false
  have unbegun : At system.courier id prompt .unbegun := by
    simp only [At, queued]
  have refused : ∀ error, Inv { system with
      worker := some id
      requests := system.requests.insert id { prompt with phase := .refused error false } } :=
    fun error => inv_over inv saved waits trivial inv.sound (Kept.refl.spares _)
  unfold System.look
  split_ifs
  · exact refused _
  · match found with
    | .error error => exact refused _
    | .ok none => exact inv
    | .ok (some agent) =>
      have goesOn : Inv { system with
          worker := some id
          requests := system.requests.insert id { prompt with phase := .found agent } } :=
        inv_unbegun inv saved unbegun trivial
      exact goesOn

theorem inv_step {action : Action} (inv : Inv system) (may : system.May action)
    (heeds : Heeds system action) : Inv (system.step action) := by
  cases action with
  | implement request ready agent attempt saving =>
    rw [System.step]
    split_ifs
    · exact inv_implement inv may heeds
    · exact inv
  | send id =>
    obtain ⟨_, prompt, found, phase⟩ := may
    rw [System.step, withPrompt_eq found]
    exact inv_unbegun inv found (by simp only [At, phase]) trivial
  | closed id saving now =>
    obtain ⟨_, prompt, found, phase⟩ := may
    rw [System.step, withPrompt_eq found]
    exact inv_refused inv found (uncarried_of_phase phase not_false)
  | keep id =>
    obtain ⟨commanded, _⟩ := may
    refine inv_released inv (fun other at_ => ?_) fun other at_ => .inl (commanded.symm.trans at_)
    cases at_.resolve_right nofun
    exact inv.names id (.inr commanded)
  | drop why =>
    exact inv_released inv (fun id at_ => inv.names id (.inr (at_.resolve_left nofun)))
      fun _ => .inr
  | other action => exact inv_other inv (kept_other may)
  | look id found =>
    obtain ⟨_, _, prompt, saved, phase⟩ := may
    rw [System.step, withPrompt_eq saved]
    exact inv_look inv saved phase
  | begin id saving now =>
    obtain ⟨_, prompt, found, is⟩ := may
    obtain ⟨agent, phase⟩ := Phase.isFound_iff.mp is
    rw [System.step, withPrompt_eq found]
    exact inv_begin inv found phase
  | sealAttempt id ready =>
    obtain ⟨_, idle, prompt, found, phase⟩ := may
    rw [System.step, withPrompt_eq found]
    match ready with
    | .ok () => exact inv_hand inv found phase idle
    | .error error =>
      exact inv_over inv found (uncarried_of_phase phase not_false) trivial inv.sound
        (Kept.refl.spares _)
  | refuse id saving now =>
    obtain ⟨_, prompt, found, is⟩ := may
    obtain ⟨error, began, phase⟩ := Phase.isRefused_iff.mp is
    rw [System.step, withPrompt_eq found]
    simp only [phase]
    exact inv_refused inv found (uncarried_of_phase phase not_false)
  | turnBack id saving now =>
    obtain ⟨prompt, found, may⟩ := may
    rw [System.step, withPrompt_eq found]
    exact inv_turnBack inv found may
  | report id result saving now =>
    obtain ⟨prompt, found, may⟩ := may
    rw [System.step, withPrompt_eq found]
    exact inv_report inv found may
  | abandon id =>
    obtain ⟨prompt, found, phase⟩ := may
    rw [System.step, withPrompt_eq found]
    exact inv_over inv found (uncarried_of_phase phase not_false) trivial inv.sound
      (Kept.refl.spares _)
  | name => exact inv_name inv
  | courier action =>
    obtain ⟨may, elsewhere⟩ := may
    by_cases read : ∃ queued, action = .check queued
    · obtain ⟨queued, rfl⟩ := read
      exact inv_check inv may
    · exact inv_courier inv may elsewhere fun queued same => read ⟨queued, same⟩

theorem inv_start {round : ExploreRound} (sound : Sound round) : Inv (System.start round) where
  carried := .start
  sound := sound
  names _ at_ := at_.elim nofun nofun
  fates _ _ found := absurd found Carried.lookup_start

/-- The steps that heed the condition. -/
def Allowed (system : System) (action : Action) : Prop := system.May action ∧ Heeds system action

instance (system : System) (action : Action) : Decidable (Allowed system action) :=
  inferInstanceAs (Decidable (_ ∧ _))

theorem inv_of_reaches {round : ExploreRound} (sound : Sound round)
    (run : Reaches System.step Allowed (System.start round) system) : Inv system :=
  run.invariant (inv_start sound) fun _ _ inv may => inv_step inv may.1 may.2

end ProgressiveReviewer.Implementation
