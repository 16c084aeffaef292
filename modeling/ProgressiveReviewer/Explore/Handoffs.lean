import ProgressiveReviewer.Explore.Steps

/-! The delivery attempts of a round: which begin, and what a late callback can change
(`review-explore-session/src/dispatch.rs`). -/

namespace ProgressiveReviewer.Explore

open Library

/-- Why a prompt was not delivered (`review-thread-service/src/delivery.rs`). -/
inductive PromptError where
  | cancelled
  | delivery (error : String)
  | notStarted
  | blocked (left : String)
  | unknown (error : String)
  deriving DecidableEq, Repr

def PromptError.message : PromptError → String
  | .cancelled => "The reviewer prompt was cancelled"
  | .delivery error => error
  | .notStarted => "The agent did not start on the prompt. Look at the agent's pane, then Retry."
  | .blocked left =>
    "Text left in the agent's input box joined the prompt, so the reviewer stopped both. " ++
      "Empty the agent's input box, then Retry. The text left there: " ++ left
  | .unknown error => "Delivery outcome unknown: " ++ error

/-- What the saved round learns from the outcome of a prompt. -/
def outcome : Except PromptError Unit → DispatchState
  | .ok _ => .delivered
  | .error .cancelled => .cancelled
  | .error .notStarted => .notStarted
  | .error (.delivery error) => .notSent error
  | .error (.blocked left) => .notSent (PromptError.blocked left).message
  | .error (.unknown _) => .unknown

theorem outcome_ne_queued (result : Except PromptError Unit) : outcome result ≠ .queued := by
  rcases result with (_ | _ | _ | _ | _) | _ <;> exact nofun

namespace DispatchId

def attempt : DispatchId → String
  | .interview _ attempt => attempt
  | .implementation _ attempt => attempt

/-- The record of a request whose attempt an id names. -/
def record : DispatchId → String ⊕ String
  | .interview request _ => .inl request
  | .implementation request _ => .inr request

end DispatchId

/-- The current attempts and their states. -/
abbrev Board := DispatchId → Option DispatchState

/-- What one operation does to the attempts: which one it makes, and which one begins. -/
inductive Handoff (before after : Board) : Option DispatchId → Option DispatchId → Prop
  | quiet : (∀ id state, after id = some state → before id = some state) →
      (∀ delivery attempt, after (.implementation delivery attempt) =
        before (.implementation delivery attempt)) → Handoff before after none none
  | queue {id : DispatchId} : after id = some .queued →
      (∀ other, other.record = id.record → other ≠ id → after other = none) →
      (∀ other, other.record ≠ id.record → after other = before other) →
      (∀ delivery attempt state, id.record = .inr delivery →
        before (.implementation delivery attempt) = some state → state.mayRetry = true) →
      Handoff before after (some id) none
  | begin {id : DispatchId} : before id = some .queued →
      after = Function.update before id (some .attempting) → Handoff before after none (some id)
  | finish {id : DispatchId} {state last : DispatchState} : before id = some state →
      state = .attempting ∨ state = .queued → last ≠ .queued →
      after = Function.update before id (some last) → Handoff before after none none

namespace Handoff

variable {before after : Board} {made begun : Option DispatchId}

/-- Attempts with one name are one attempt. -/
def Distinct (board : Board) : Prop :=
  ∀ id other state state', board id = some state → board other = some state' →
    id.attempt = other.attempt → id = other

/-- An attempt after the operation was there before, or is the one that was made. -/
theorem current (moved : Handoff before after made begun) {id : DispatchId} {state : DispatchState}
    (now : after id = some state) :
    made = some id ∨ ∃ earlier, before id = some earlier ∧ (state = .queued → earlier = .queued) := by
  cases moved with
  | quiet kept _ => exact .inr ⟨state, kept id state now, fun same => same⟩
  | @queue made _ gone rest _ =>
    by_cases same : id = made
    · exact .inl (congrArg some same.symm)
    · have other : id.record ≠ made.record := fun equal => by
        rw [gone id equal same] at now; cases now
      exact .inr ⟨state, rest id other ▸ now, fun same => same⟩
  | @begin begun queued updated =>
    subst updated
    by_cases same : id = begun
    · subst same
      rw [Function.update_self] at now
      exact .inr ⟨_, queued, fun _ => rfl⟩
    · rw [Function.update_of_ne same] at now
      exact .inr ⟨state, now, fun same => same⟩
  | @finish ended held last was _ no updated =>
    subst updated
    by_cases same : id = ended
    · subst same
      rw [Function.update_self] at now
      exact .inr ⟨held, was, fun same => absurd ((Option.some.inj now).trans same) no⟩
    · rw [Function.update_of_ne same] at now
      exact .inr ⟨state, now, fun same => same⟩

theorem distinct (moved : Handoff before after made begun) (apart : Distinct before)
    (fresh : ∀ id, made = some id → ∀ other state, before other = some state →
      other.attempt ≠ id.attempt) : Distinct after := by
  intro id other state state' now now' same
  rcases moved.current now with rfl | ⟨earlier, was, _⟩ <;>
    rcases moved.current now' with made' | ⟨earlier', was', _⟩
  · exact Option.some.inj made'
  · exact absurd same.symm (fresh id rfl other _ was')
  · exact absurd same (fresh other made' id _ was)
  · exact apart _ _ _ _ was was' same

/-- An implementation delivery that may have arrived keeps its attempt, and its state
unless that attempt finishes. -/
theorem held (moved : Handoff before after made begun) {delivery attempt : String}
    {state : DispatchState} (was : before (.implementation delivery attempt) = some state)
    (sent : state.mayRetry = false) :
    ∃ now, after (.implementation delivery attempt) = some now ∧ now ≠ .queued ∧
      (state ≠ .attempting → now = state) := by
  have unqueued : state ≠ .queued := by rintro rfl; cases sent
  cases moved with
  | quiet _ same => exact ⟨state, same delivery attempt ▸ was, unqueued, fun _ => rfl⟩
  | @queue made _ _ rest retry =>
    by_cases same : (DispatchId.implementation delivery attempt).record = made.record
    · have again := retry delivery attempt state same.symm was
      rw [sent] at again; cases again
    · exact ⟨state, rest _ same ▸ was, unqueued, fun _ => rfl⟩
  | @begin begun queued updated =>
    subst updated
    have other : DispatchId.implementation delivery attempt ≠ begun := by
      rintro rfl
      exact unqueued (Option.some.inj (was.symm.trans queued))
    exact ⟨state, by rw [Function.update_of_ne other, was], unqueued, fun _ => rfl⟩
  | @finish ended held last begun live no updated =>
    subst updated
    by_cases same : DispatchId.implementation delivery attempt = ended
    · subst same
      refine ⟨last, Function.update_self .., no, fun other => ?_⟩
      obtain rfl := Option.some.inj (was.symm.trans begun)
      exact (live.elim other unqueued).elim
    · exact ⟨state, by rw [Function.update_of_ne same, was], unqueued, fun _ => rfl⟩

theorem begins {id : DispatchId} (moved : Handoff before after made (some id)) :
    made = none ∧ before id = some .queued ∧
      after = Function.update before id (some .attempting) := by
  cases moved with
  | begin queued updated => exact ⟨rfl, queued, updated⟩

/-- No attempt that waits has begun, and none began twice. -/
structure Once (board : Board) (names started : List String) : Prop where
  named : ∀ id state, board id = some state → id.attempt ∈ names
  distinct : Distinct board
  waiting : ∀ id, board id = some .queued → id.attempt ∉ started
  earlier : ∀ attempt ∈ started, attempt ∈ names
  nodup : started.Nodup

theorem once {names more started : List String} (moved : Handoff before after made begun)
    (once : Once before names started)
    (fresh : ∀ id, made = some id → id.attempt ∉ names ∧ id.attempt ∈ more)
    (kept : ∀ name ∈ names, name ∈ more) :
    Once after more ((begun.map (·.attempt)).toList ++ started) := by
  have distinct : Distinct after := moved.distinct once.distinct fun id same other state was equal =>
    (fresh id same).1 (equal ▸ once.named other state was)
  have named : ∀ id state, after id = some state → id.attempt ∈ more := fun id state now =>
    (moved.current now).elim (fun same => (fresh id same).2)
      fun ⟨earlier, was, _⟩ => kept _ (once.named id earlier was)
  have waiting : ∀ id, after id = some .queued → id.attempt ∉ started := fun id now began => by
    rcases moved.current now with same | ⟨earlier, was, queued⟩
    · exact (fresh id same).1 (once.earlier _ began)
    · exact once.waiting id (queued rfl ▸ was) began
  cases begun with
  | none =>
    exact ⟨named, distinct, waiting, fun attempt mem => kept _ (once.earlier _ mem), once.nodup⟩
  | some begun =>
    obtain ⟨_, queued, rfl⟩ := moved.begins
    refine ⟨named, distinct, fun id now mem => ?_, fun attempt mem => ?_, ?_⟩
    · rcases List.mem_cons.mp mem with same | mem
      · have began : Function.update before begun (some .attempting) begun = some .attempting :=
          Function.update_self ..
        have equal := distinct _ _ _ _ now began same
        rw [equal, began] at now
        cases now
      · exact waiting id now mem
    · rcases List.mem_cons.mp mem with rfl | mem
      · exact kept _ (once.named begun _ queued)
      · exact kept _ (once.earlier _ mem)
    · exact List.nodup_cons.mpr ⟨once.waiting begun queued, once.nodup⟩

end Handoff

namespace ExploreRound

variable {round changed : ExploreRound}

theorem dispatchState_interview {request attempt : String} {state : DispatchState} :
    round.dispatchState (.interview request attempt) = some state ↔ ∃ record,
      round.turns.lookup request = some record ∧ record.attempt = attempt ∧ record.state = state := by
  simp [dispatchState, Option.filter_eq_some_iff, and_assoc]

theorem dispatchState_implementation {request attempt : String} {state : DispatchState} :
    round.dispatchState (.implementation request attempt) = some state ↔ ∃ record,
      round.implementations.lookup request = some record ∧ record.attempt = attempt ∧
        record.state = state := by
  simp [dispatchState, Option.filter_eq_some_iff, and_assoc]

/-- No attempt is made or changes, though turns may go. -/
structure Quiet (round changed : ExploreRound) : Prop where
  turns : ∀ request record, changed.turns.lookup request = some record →
    ∃ earlier, round.turns.lookup request = some earlier ∧ earlier.attempt = record.attempt ∧
      earlier.state = record.state
  implementations : changed.implementations = round.implementations

namespace Quiet

theorem refl : Quiet round round := ⟨fun _ record found => ⟨record, found, rfl, rfl⟩, rfl⟩

theorem trans {last : ExploreRound} (first : Quiet round changed) (second : Quiet changed last) :
    Quiet round last := by
  refine ⟨fun request record found => ?_, second.implementations.trans first.implementations⟩
  obtain ⟨middle, found, attempt, state⟩ := second.turns request record found
  obtain ⟨earlier, found, attempt', state'⟩ := first.turns request middle found
  exact ⟨earlier, found, attempt'.trans attempt, state'.trans state⟩

theorem of_eq (turns : changed.turns = round.turns)
    (implementations : changed.implementations = round.implementations) : Quiet round changed :=
  ⟨fun _ record found => ⟨record, turns ▸ found, rfl, rfl⟩, implementations⟩

theorem handoff (quiet : Quiet round changed) :
    Handoff round.dispatchState changed.dispatchState none none := by
  refine .quiet (fun id state now => ?_) fun delivery attempt => ?_
  · cases id with
    | interview request attempt =>
      obtain ⟨record, found, named, same⟩ := dispatchState_interview.mp now
      obtain ⟨earlier, found, attempt', state'⟩ := quiet.turns request record found
      exact dispatchState_interview.mpr ⟨earlier, found, attempt'.trans named, state'.trans same⟩
    | implementation request attempt =>
      obtain ⟨record, found, rest⟩ := dispatchState_implementation.mp now
      exact dispatchState_implementation.mpr ⟨record, quiet.implementations ▸ found, rest⟩
  · unfold dispatchState
    rw [quiet.implementations]

end Quiet

/-- A change of a turn that keeps its attempt and state is quiet. -/
theorem quiet_modify {request : String} {change : InterviewDelivery → InterviewDelivery}
    (attempt : ∀ record, (change record).attempt = record.attempt)
    (state : ∀ record, (change record).state = record.state) :
    Quiet round { round with turns := round.turns.modify request change } := by
  refine ⟨fun other record found => ?_, rfl⟩
  rw [SortedMap.lookup_modify] at found
  split_ifs at found with same
  · obtain ⟨earlier, was, rfl⟩ := Option.map_eq_some_iff.mp found
    exact ⟨earlier, same ▸ was, (attempt earlier).symm, (state earlier).symm⟩
  · exact ⟨record, found, rfl, rfl⟩

theorem quiet_forget (request : String) : Quiet round (round.forget request).2 := by
  refine ⟨fun other record found => ?_, rfl⟩
  have found : (round.turns.erase request).lookup other = some record := found
  rw [SortedMap.lookup_erase] at found
  split_ifs at found
  exact ⟨record, found, rfl, rfl⟩

theorem quiet_forgetAll (requests : List String) (round : ExploreRound) :
    Quiet round (forgetAll requests round).2 := by
  induction requests generalizing round with
  | nil => exact .refl
  | cons request requests ih => exact (quiet_forget request).trans (ih _)

theorem quiet_forgetApplied (answer : ReviewerAnswer) :
    Quiet round (round.forgetApplied answer).2 := by
  unfold forgetApplied
  split
  · split_ifs <;> exact .of_eq rfl rfl
  · exact .refl

theorem quiet_cancelAnswer {id : String} {result : CancelledAnswer × ExploreRound}
    (ran : round.cancelAnswer id = .ok result) : Quiet round result.2 := by
  obtain ⟨_, ran⟩ := ensure_bind_eq_ok.mp ran
  obtain ⟨⟨cancelled, exploration⟩, _, ran⟩ := except_bind_eq_ok.mp ran
  obtain rfl := Except.ok.inj ran
  have kept : Quiet round { round with exploration := exploration } := .of_eq rfl rfl
  exact (kept.trans (quiet_forgetAll _ _)).trans (quiet_forgetApplied _)

theorem quiet_cancelUntil {id : String} {answers : Nat} {round : ExploreRound}
    {result : List CancelledAnswer × ExploreRound}
    (ran : cancelUntil id answers round = .ok result) : Quiet round result.2 := by
  induction answers generalizing round result with
  | zero =>
    obtain rfl := Except.ok.inj ran
    exact .refl
  | succ answers ih =>
    unfold cancelUntil at ran
    split at ran
    · obtain rfl := Except.ok.inj ran
      exact .refl
    · obtain ⟨⟨cancelled, kept⟩, first, ran⟩ := except_bind_eq_ok.mp ran
      have quiet := quiet_cancelAnswer first
      dsimp only at ran
      split_ifs at ran
      · obtain rfl := Except.ok.inj ran
        exact quiet
      · obtain ⟨⟨more, last⟩, rest, ran⟩ := except_bind_eq_ok.mp ran
        obtain rfl := Except.ok.inj ran
        have after : Quiet kept last := ih rest
        exact quiet.trans after

theorem quiet_submitted {world : World} {now : Nat} {diverged : List String}
    {update : InterviewUpdate} {result : Bool × ExploreRound}
    (ran : round.submitted world now diverged update = .ok result) : Quiet round result.2 := by
  obtain ⟨⟨applied, kept⟩, submitted, ran⟩ := except_bind_eq_ok.mp ran
  obtain ⟨⟨applied', candidate⟩, _, same⟩ := except_bind_eq_ok.mp submitted
  have quiet : Quiet round kept := by
    dsimp only at same
    split_ifs at same <;> cases same <;> exact .of_eq rfl rfl
  dsimp only at ran
  split_ifs at ran <;> cases ran
  · have merged : Quiet kept { kept with turns := kept.turns.modify update.request fun turn =>
        { turn with diverged := mergeDiverged turn.diverged diverged } } :=
      quiet_modify (fun _ => rfl) fun _ => rfl
    refine (quiet.trans merged).trans ?_
    unfold complete
    split_ifs <;> exact .of_eq rfl rfl
  · exact quiet

/-- A changed state of a current attempt. -/
theorem dispatchState_setDispatchState {id : DispatchId} {state earlier : DispatchState}
    (was : round.dispatchState id = some earlier) :
    (round.setDispatchState state id).dispatchState =
      Function.update round.dispatchState id (some state) := by
  funext other
  rw [Function.update_apply]
  cases id with
  | interview request attempt =>
    obtain ⟨record, found, named, _⟩ := dispatchState_interview.mp was
    cases other with
    | interview request' attempt' =>
      simp only [setDispatchState, dispatchState, SortedMap.lookup_modify]
      split_ifs with same equal equal
      · cases equal
        simp [found, named]
      · have apart : attempt ≠ attempt' := fun same' => equal (by rw [same, same'])
        simp [← same, found, Option.filter, named, apart]
      · cases equal
        exact absurd rfl same
      · rfl
    | implementation => rfl
  | implementation request attempt =>
    obtain ⟨record, found, named, _⟩ := dispatchState_implementation.mp was
    cases other with
    | interview => rfl
    | implementation request' attempt' =>
      simp only [setDispatchState, dispatchState, SortedMap.lookup_modify]
      split_ifs with same equal equal
      · cases equal
        simp [found, named]
      · have apart : attempt ≠ attempt' := fun same' => equal (by rw [same, same'])
        simp [← same, found, Option.filter, named, apart]
      · cases equal
        exact absurd rfl same
      · rfl

/-- A turn that waits under a new attempt. -/
theorem handoff_of_turn {request attempt : String} {delivery : InterviewDelivery}
    (named : delivery.attempt = attempt) (queued : delivery.state = .queued)
    (turns : changed.turns = round.turns.insert request delivery)
    (implementations : changed.implementations = round.implementations) :
    Handoff round.dispatchState changed.dispatchState (some (.interview request attempt)) none := by
  subst named
  refine .queue ?_ ?_ ?_ nofun
  · exact dispatchState_interview.mpr ⟨delivery, by rw [turns, SortedMap.lookup_insert_self], rfl, queued⟩
  · rintro (⟨_, other⟩ | _) same different
    · cases same
      have apart : delivery.attempt ≠ other := fun equal => different (equal ▸ rfl)
      simp [dispatchState, turns, Option.filter, apart]
    · cases same
  · rintro (⟨other, _⟩ | _) different
    · have apart : request ≠ other := fun equal => different (equal ▸ rfl)
      simp only [dispatchState, turns, SortedMap.lookup_insert, if_neg apart]
    · simp only [dispatchState, implementations]

/-- An implementation that waits under a new attempt, its earlier one not sent. -/
theorem handoff_of_implementation {request attempt : String} {delivery : ImplementationDelivery}
    (named : delivery.attempt = attempt) (queued : delivery.state = .queued)
    (retry : ∀ record, round.implementations.lookup request = some record →
      record.state.mayRetry = true) (turns : changed.turns = round.turns)
    (implementations : changed.implementations = round.implementations.insert request delivery) :
    Handoff round.dispatchState changed.dispatchState (some (.implementation request attempt))
      none := by
  subst named
  refine .queue ?_ ?_ ?_ ?_
  · exact dispatchState_implementation.mpr
      ⟨delivery, by rw [implementations, SortedMap.lookup_insert_self], rfl, queued⟩
  · rintro (_ | ⟨_, other⟩) same different
    · cases same
    · cases same
      have apart : delivery.attempt ≠ other := fun equal => different (equal ▸ rfl)
      simp [dispatchState, implementations, Option.filter, apart]
  · rintro (_ | ⟨other, _⟩) different
    · simp only [dispatchState, turns]
    · have apart : request ≠ other := fun equal => different (equal ▸ rfl)
      simp only [dispatchState, implementations, SortedMap.lookup_insert, if_neg apart]
  · intro other attempt state same was
    cases same
    obtain ⟨record, found, _, rfl⟩ := dispatchState_implementation.mp was
    exact retry record found

theorem handoff_post {request : TurnRequest} {fresh : FreshIds} {attempt : String} {new : Bool}
    (ran : round.post request fresh attempt = .ok (new, changed)) :
    Handoff round.dispatchState changed.dispatchState
      (some (.interview request.request attempt)) none := by
  obtain ⟨_, ran⟩ := ensure_bind_eq_ok.mp ran
  split at ran
  · obtain ⟨_, _, _, ran⟩ := by simpa only [resend, ensure_bind_eq_ok] using ran
    cases ran
    exact handoff_of_turn rfl rfl rfl rfl
  · obtain ⟨_, _, ran⟩ := except_bind_eq_ok.mp ran
    obtain ⟨_, ran⟩ := ensure_bind_eq_ok.mp ran
    obtain ⟨_, _, ran⟩ := except_bind_eq_ok.mp ran
    cases ran
    exact handoff_of_turn rfl rfl rfl rfl

theorem handoff_authorize {request : ImplementationRequest} {attempt : String} {new : Bool}
    (ran : round.authorize request attempt = .ok (new, changed)) :
    Handoff round.dispatchState changed.dispatchState
      (some (.implementation request.delivery attempt)) none := by
  obtain ⟨_, _, ran⟩ := by simpa only [authorize, ensure_bind_eq_ok] using ran
  obtain ⟨_, _, ran⟩ := except_bind_eq_ok.mp ran
  split at ran
  · next previous found =>
    obtain ⟨_, retry, ran⟩ := by simpa only [ensure_bind_eq_ok] using ran
    cases ran
    exact handoff_of_implementation rfl rfl
      (fun _ same => Option.some.inj (found.symm.trans same) ▸ retry) rfl rfl
  · next missing =>
    cases ran
    exact handoff_of_implementation rfl rfl
      (fun _ same => by cases missing.symm.trans same) rfl rfl

theorem dispatchState_started (now : Nat) (id : DispatchId) :
    (round.started now id).dispatchState = round.dispatchState := by
  cases id with
  | implementation _ _ => rfl
  | interview request _ =>
    have kept := sent_modify round.turns request
      (fun record => { record with startedAtMs := some now })
      (fun record => (record.attempt, record.state)) fun _ => rfl
    funext other
    cases other with
    | implementation => rfl
    | interview other attempt =>
      have same := congrArg (fun found => (found.filter (·.1 = attempt)).map Prod.snd)
        (congrFun kept other)
      rw [Option.filter_map, Option.map_map, Option.filter_map, Option.map_map] at same
      exact same

theorem dispatchState_delivered (result : DispatchResult) (now : Nat) :
    (round.delivered result now).dispatchState = round.dispatchState := by
  unfold delivered
  split
  · next request _ _ _ =>
    have kept := sent_modify round.implementations request
      (fun record => { record with sentAtMs := some now })
      (fun record => (record.attempt, record.state)) fun _ => rfl
    funext other
    cases other with
    | interview => rfl
    | implementation other attempt =>
      have same := congrArg (fun found => (found.filter (·.1 = attempt)).map Prod.snd)
        (congrFun kept other)
      rw [Option.filter_map, Option.map_map, Option.filter_map, Option.map_map] at same
      exact same
  · rfl

theorem handoff_begin {id : DispatchId} {agent : Agent} {now : Nat}
    (ran : round.beginDispatch id agent now = .ok changed) :
    Handoff round.dispatchState changed.dispatchState none (some id) := by
  obtain ⟨queued, rfl⟩ := beginDispatch_eq_ok ran
  refine .begin queued ?_
  have bound : ({ round with lastAgentSession := ConversationBinding.fromAgent agent }
      : ExploreRound).dispatchState id = some .queued := queued
  rw [dispatchState_started, dispatchState_setDispatchState bound]
  rfl

theorem handoff_finish {result : DispatchResult} {now : Nat} (ended : result.state ≠ .queued) :
    Handoff round.dispatchState (round.finishDispatch result now).dispatchState none none := by
  unfold finishDispatch
  split
  · next state current =>
    split_ifs with live
    · refine .finish current (live.imp And.right And.right) ended ?_
      rw [dispatchState_delivered, dispatchState_setDispatchState current]
    · exact Quiet.refl.handoff
  · exact Quiet.refl.handoff

theorem updateRound_eq_ok {change : ExploreRound → Except String ExploreRound}
    {saved : ExploreRound} (ran : updateRound change round = .ok saved) :
    ∃ changed revision, change round = .ok changed ∧ saved = { changed with revision := revision } := by
  obtain ⟨changed, ran, same⟩ := except_bind_eq_ok.mp ran
  split_ifs at same with unchanged
  · exact ⟨changed, changed.revision, ran, (Except.ok.inj same).symm.trans unchanged.symm⟩
  · obtain ⟨_, next⟩ := ensure_bind_eq_ok.mp same
    exact ⟨changed, _, ran, (Except.ok.inj next).symm⟩

variable (round)

/-- The attempt that one operation begins, once it is saved. -/
def begins : Action → Option DispatchId
  | .beginDispatch id agent now =>
    match updateRound (fun saved => saved.beginDispatch id agent now) round with
    | .ok _ => some id
    | .error _ => none
  | _ => none

end ExploreRound

/-- The name of the attempt that an operation would make. -/
def Action.makes : Action → Option String
  | .post _ _ attempt => some attempt
  | .authorize _ attempt => some attempt
  | _ => none

namespace ExploreRound

variable {round : ExploreRound} {action : Action}

theorem board_of_run {P : Board → Prop} (kept : P round.dispatchState)
    (ran : ∀ changed, round.run action = .ok changed → P changed.dispatchState) :
    P (round.step action).dispatchState := by
  rcases round.step_eq action with same | ⟨changed, _, done, same⟩
  · rw [same]
    exact kept
  · rw [same]
    exact ran changed done

theorem step_quiet (quiet : ∀ changed, round.run action = .ok changed → Quiet round changed) :
    Handoff round.dispatchState (round.step action).dispatchState none none :=
  board_of_run (P := fun board => Handoff round.dispatchState board none none) Quiet.refl.handoff
    fun changed ran => (quiet changed ran).handoff

theorem step_begins {id : DispatchId} {agent : Agent} {now : Nat} :
    Handoff round.dispatchState (round.step (.beginDispatch id agent now)).dispatchState none
      (round.begins (.beginDispatch id agent now)) := by
  have same : round.step (.beginDispatch id agent now) =
      match updateRound (fun saved => saved.beginDispatch id agent now) round with
      | .ok changed => changed
      | .error _ => round := rfl
  rw [same]
  dsimp only [begins]
  cases change : updateRound (fun saved => saved.beginDispatch id agent now) round with
  | error failure => exact Quiet.refl.handoff
  | ok saved =>
    obtain ⟨changed, revision, ran, rfl⟩ := updateRound_eq_ok change
    have began : Handoff round.dispatchState changed.dispatchState none (some id) :=
      handoff_begin ran
    exact began

theorem step_makes {id : DispatchId} (begins : round.begins action = none)
    (named : action.makes = some id.attempt)
    (ran : ∀ changed, round.run action = .ok changed →
      Handoff round.dispatchState changed.dispatchState (some id) none) :
    ∃ made, Handoff round.dispatchState (round.step action).dispatchState made
        (round.begins action) ∧ ∀ id, made = some id → action.makes = some id.attempt := by
  rw [begins]
  refine board_of_run (P := fun board => ∃ made, Handoff round.dispatchState board made none ∧
    ∀ id, made = some id → action.makes = some id.attempt)
    ⟨none, Quiet.refl.handoff, fun _ => nofun⟩ fun changed done => ⟨some id, ran changed done, ?_⟩
  rintro _ ⟨⟩
  exact named

/-- Every operation is one handoff step, where callbacks report outcomes. -/
theorem step_handoff
    (reported : ∀ result now, action = .finishDispatch result now → result.state ≠ .queued) :
    ∃ made, Handoff round.dispatchState (round.step action).dispatchState made
        (round.begins action) ∧ ∀ id, made = some id → action.makes = some id.attempt := by
  cases action with
  | beginDispatch id agent now => exact ⟨none, step_begins, nofun⟩
  | post request fresh attempt =>
    have named : (Action.post request fresh attempt).makes =
      some (DispatchId.interview request.request attempt).attempt := rfl
    refine step_makes rfl named fun changed ran => ?_
    obtain ⟨⟨new, _⟩, posted, rfl⟩ := except_map_eq_ok.mp ran
    exact handoff_post posted
  | authorize request attempt =>
    have named : (Action.authorize request attempt).makes =
      some (DispatchId.implementation request.delivery attempt).attempt := rfl
    refine step_makes rfl named fun changed ran => ?_
    obtain ⟨⟨new, _⟩, authorized, rfl⟩ := except_map_eq_ok.mp ran
    exact handoff_authorize authorized
  | finishDispatch result now =>
    refine ⟨none, board_of_run (P := fun board => Handoff round.dispatchState board none none)
      Quiet.refl.handoff fun changed ran => ?_, nofun⟩
    obtain rfl := Except.ok.inj ran
    exact handoff_finish (reported result now rfl)
  | submit world now diverged update =>
    refine ⟨none, step_quiet fun changed ran => ?_, nofun⟩
    obtain ⟨result, submitted, rfl⟩ := except_map_eq_ok.mp ran
    exact quiet_submitted submitted
  | cancelAnswersFrom id =>
    refine ⟨none, step_quiet fun changed ran => ?_, nofun⟩
    obtain ⟨result, cancelled, rfl⟩ := except_map_eq_ok.mp ran
    exact quiet_cancelUntil (ensure_bind_eq_ok.mp cancelled).2
  | revise world revision fresh =>
    refine ⟨none, step_quiet fun changed ran => ?_, nofun⟩
    obtain ⟨result, _, rfl⟩ := except_map_eq_ok.mp ran
    exact .of_eq rfl rfl
  | retry =>
    refine ⟨none, step_quiet fun changed ran => ?_, nofun⟩
    obtain ⟨result, _, rfl⟩ := except_map_eq_ok.mp ran
    exact .of_eq rfl rfl
  | failed | cancel | pin | mark =>
    refine ⟨none, step_quiet fun changed ran => ?_, nofun⟩
    obtain rfl := Except.ok.inj ran
    exact .of_eq rfl rfl

end ExploreRound

/-- A saved round, the attempts that were made for it and those that began. -/
structure Handoffs where
  round : ExploreRound
  made : List String
  begun : List String

namespace Handoffs

def new (exploration : Exploration) : Handoffs := ⟨.new exploration, [], []⟩

def step (log : Handoffs) (action : Action) : Handoffs where
  round := log.round.step action
  made := action.makes.toList ++ log.made
  begun := ((log.round.begins action).map (·.attempt)).toList ++ log.begun

/-- New attempts have new names, and a callback reports the outcome of a prompt. -/
def May (log : Handoffs) (action : Action) : Prop :=
  (∀ attempt, action.makes = some attempt → attempt ∉ log.made) ∧
    ∀ result now, action = .finishDispatch result now → ∃ prompt, result.state = outcome prompt

variable {exploration : Exploration} {log : Handoffs} {action : Action}

theorem May.reported (may : log.May action) :
    ∀ result now, action = .finishDispatch result now → result.state ≠ .queued := by
  intro result now same
  obtain ⟨prompt, same⟩ := may.2 result now same
  exact same ▸ outcome_ne_queued prompt

theorem once_new : Handoff.Once (new exploration).round.dispatchState [] [] where
  named id _ current := by cases id <;> cases current
  distinct id _ _ _ current := by cases id <;> cases current
  waiting _ _ := List.not_mem_nil
  earlier _ mem := absurd mem List.not_mem_nil
  nodup := List.nodup_nil

theorem once_step (once : Handoff.Once log.round.dispatchState log.made log.begun)
    (may : log.May action) : Handoff.Once (log.step action).round.dispatchState
      (log.step action).made (log.step action).begun := by
  obtain ⟨made, moved, named⟩ := log.round.step_handoff may.reported
  refine moved.once once (fun id same => ⟨may.1 _ (named id same), ?_⟩) fun name mem => ?_
  · exact List.mem_append_left _ (by simp [named id same])
  · exact List.mem_append_right _ mem

theorem once_of_reaches (run : Reaches step May (new exploration) log) :
    Handoff.Once log.round.dispatchState log.made log.begun := by
  induction run with
  | start => exact once_new
  | step action _ may once => exact once_step once may

/-- An implementation delivery that arrived, or may have, stays as it is. -/
theorem final_of_allowed {delivery attempt : String} {state : DispatchState} {more : List Action}
    (was : log.round.dispatchState (.implementation delivery attempt) = some state)
    (final : state = .delivered ∨ state = .unknown) (may : AllAllowed step May log more) :
    (more.foldl step log).round.dispatchState (.implementation delivery attempt) = some state := by
  induction more generalizing log with
  | nil => exact was
  | cons action more ih =>
    obtain ⟨_, moved, _⟩ := log.round.step_handoff may.1.reported
    obtain ⟨now, after, _, same⟩ := moved.held was (by rcases final with rfl | rfl <;> rfl)
    refine ih ?_ may.2
    rw [← same (by rcases final with rfl | rfl <;> exact nofun)]
    exact after

end Handoffs

namespace ExploreRound

variable (round : ExploreRound)

/-- The current attempt of the request an id names. -/
def attemptOf : DispatchId → Option String
  | .interview request _ => (round.turns.lookup request).map (·.attempt)
  | .implementation request _ => (round.implementations.lookup request).map (·.attempt)

variable {round}

theorem dispatchState_of_superseded {id : DispatchId}
    (superseded : round.attemptOf id ≠ some id.attempt) : round.dispatchState id = none := by
  cases id <;>
  · simp only [attemptOf, DispatchId.attempt, ne_eq, Option.map_eq_some_iff, not_exists,
      not_and] at superseded
    simp only [dispatchState, Option.map_eq_none_iff, Option.filter_eq_none_iff,
      decide_eq_true_eq]
    exact superseded

theorem finishDispatch_superseded {result : DispatchResult} {now : Nat}
    (superseded : round.attemptOf result.id ≠ some result.id.attempt) :
    round.finishDispatch result now = round := by
  rw [finishDispatch, dispatchState_of_superseded superseded]

/-- An implementation that arrived, or may have, is not authorized again. -/
theorem authorize_refused {request : ImplementationRequest} {attempt : String}
    {record : ImplementationDelivery}
    (found : round.implementations.lookup request.delivery = some record)
    (sent : record.state.mayRetry = false) :
    ¬∃ result, round.authorize request attempt = .ok result := by
  rintro ⟨result, ran⟩
  obtain ⟨_, _, ran⟩ := by simpa only [authorize, ensure_bind_eq_ok] using ran
  obtain ⟨_, _, ran⟩ := except_bind_eq_ok.mp ran
  rw [found] at ran
  obtain ⟨_, retry, _⟩ := by simpa only [ensure_bind_eq_ok] using ran
  exact Bool.noConfusion (sent.symm.trans retry)

/-- An implementation that arrived, or may have, does not begin again. -/
theorem beginDispatch_refused {delivery attempt : String} {agent : Agent} {now : Nat}
    {record : ImplementationDelivery}
    (found : round.implementations.lookup delivery = some record)
    (sent : record.state.mayRetry = false) :
    ¬∃ changed, round.beginDispatch (.implementation delivery attempt) agent now = .ok changed := by
  rintro ⟨changed, ran⟩
  obtain ⟨record', same, _, queued⟩ := dispatchState_implementation.mp (beginDispatch_eq_ok ran).1
  obtain rfl := Option.some.inj (found.symm.trans same)
  rw [queued] at sent
  cases sent

end ExploreRound

namespace Handoffs

variable {exploration : Exploration} {log : Handoffs}

theorem handed_off_once (run : Reaches step May (new exploration) log) :
    log.begun.Nodup ∧
      (∀ result now, log.round.attemptOf result.id ≠ some result.id.attempt →
        log.round.finishDispatch result now = log.round) ∧
      (∀ delivery record, log.round.implementations.lookup delivery = some record →
        record.state = .attempting ∨ record.state = .delivered ∨ record.state = .unknown →
        (∀ attempt agent now, ¬∃ changed,
          log.round.beginDispatch (.implementation delivery attempt) agent now = .ok changed) ∧
        (∀ request attempt, request.delivery = delivery →
          ¬∃ result, log.round.authorize request attempt = .ok result) ∧
        ∀ action, log.May action → ∃ now, (log.step action).round.dispatchState
            (.implementation delivery record.attempt) = some now ∧ now ≠ .queued ∧
          (record.state ≠ .attempting → now = record.state)) ∧
      ∀ delivery attempt state, log.round.dispatchState (.implementation delivery attempt) =
          some state → state = .delivered ∨ state = .unknown →
        ∀ more, AllAllowed step May log more → (more.foldl step log).round.dispatchState
          (.implementation delivery attempt) = some state := by
  refine ⟨(once_of_reaches run).nodup, fun _ _ => ExploreRound.finishDispatch_superseded,
    fun delivery record found sent => ?_, fun _ _ _ was final _ => final_of_allowed was final⟩
  have sent : record.state.mayRetry = false := by
    rcases sent with same | same | same <;> rw [same] <;> rfl
  refine ⟨fun _ _ _ => ExploreRound.beginDispatch_refused found sent, ?_, fun action may => ?_⟩
  · rintro request attempt rfl
    exact ExploreRound.authorize_refused found sent
  · obtain ⟨_, moved, _⟩ := log.round.step_handoff may.reported
    exact moved.held (ExploreRound.dispatchState_implementation.mpr ⟨record, found, rfl, rfl⟩) sent

section Opening

/-- A round on an empty change. -/
def opening : Exploration := .new "round" ⟨⟨"unit", "checkpoint"⟩, [], [], [], none⟩

/-- The request that opens the round. -/
def kickoff : TurnRequest where
  instanceId := "round"
  request := "kickoff"
  checkpoint := ⟨"unit", "checkpoint"⟩
  answer := none
  cancelled := []
  responseError := none
  challenger := false
  author := .reviewer
  reviewer := none
  writing := .plain

/-- The opening request on its way to its agent. -/
def kickedOff : Handoffs :=
  step (step (new opening) (.post kickoff ⟨"request", "answer"⟩ "first"))
    (.beginDispatch (.interview "kickoff" "first") ⟨none, none⟩ 0)

theorem reaches_kickedOff : Reaches step May (new opening) kickedOff := by
  refine .step _ (.step _ .start ⟨?_, nofun⟩) ⟨nofun, nofun⟩
  rintro _ ⟨⟩
  exact List.not_mem_nil

theorem kickoff_handed_off_once : kickedOff.begun = ["first"] ∧ kickedOff.begun.Nodup :=
  ⟨by decide, (handed_off_once reaches_kickedOff).1⟩

end Opening

end Handoffs

end ProgressiveReviewer.Explore
