import ProgressiveReviewer.Explore.Checks

/-! Every operation of a round moves its dialogue. -/

namespace ProgressiveReviewer.Explore

open Library

namespace Exploration

variable {exploration : Exploration}

/-- The answer a round records. -/
structure Recorded (exploration : Exploration) (question : Option Question)
    (answer : ReviewerAnswer) : Prop where
  question : answer.question = question
  checkpoint : answer.checkpoint = exploration.comparison.checkpoint
  context : ∃ turn ∈ exploration.conversation, Dialogue.Answers answer turn
  option : ∀ option, answer.option = some option →
    ∃ question, answer.question = some question ∧ option ∈ question.choices

theorem context_answers {input : AnswerInput} {question : Option Question} {turn : ConversationTurn}
    (found : exploration.context input question = some turn) :
    turn ∈ exploration.conversation ∧ Dialogue.Asks question turn := by
  refine ⟨List.mem_reverse.mp (List.mem_of_find?_eq_some found), ?_⟩
  have holds := List.find?_some found
  cases question with
  | some question =>
    have asked : turn.update.next = some question := of_decide_eq_true holds
    exact asked
  | none => exact ((Bool.and_eq_true _ _).mp holds).1

theorem chosen_choice {input : AnswerInput} {question : Option Question} {option : Alternative}
    (ran : chosen input question = .ok (some option)) :
    ∃ asked, question = some asked ∧ option ∈ asked.choices := by
  unfold chosen at ran
  split at ran
  · cases ran
  · cases ran
  · next id asked _ =>
    split at ran
    · next choice found =>
      cases ran
      exact ⟨asked, rfl, List.mem_of_find?_eq_some found⟩
    · cases ran

theorem record_eq_ok {input : AnswerInput} {question : Option Question} {id : String}
    {answer : ReviewerAnswer} {kept : Exploration}
    (ran : exploration.record input question id = .ok (answer, kept)) :
    Recorded exploration question answer ∧
      kept = { exploration with answers := exploration.answers ++ [answer] } := by
  unfold record at ran
  split at ran
  · cases ran
  · next turn found =>
    obtain ⟨mem, answers⟩ := context_answers found
    obtain ⟨_, ran⟩ := ensure_bind_eq_ok.mp ran
    obtain ⟨_, _, ran⟩ := except_bind_eq_ok.mp ran
    obtain ⟨option, chose, ran⟩ := except_bind_eq_ok.mp ran
    obtain ⟨_, _, ran⟩ := by simpa only [ensure_bind_eq_ok] using ran
    cases ran
    refine ⟨⟨rfl, rfl, ⟨turn, mem, rfl, answers⟩, ?_⟩, rfl⟩
    rintro option rfl
    exact chosen_choice chose

/-- What a new request is made of. -/
theorem request_eq_ok {input : Option AnswerInput} {question : Option Question} {fresh : FreshIds}
    {request : TurnRequest} {kept : Exploration}
    (ran : exploration.request input question fresh = .ok (request, kept)) :
    exploration.outstanding = none ∧
      request.cancelled = ((exploration.retry.map (·.cancelled)).getD []) ++ exploration.cancelled ∧
      (input = none → request.answer = none) ∧
      (input.isSome = true → ∃ answer, request.answer = some answer ∧
        Recorded exploration question answer) := by
  obtain ⟨idle, ran⟩ := ensure_bind_eq_ok.mp ran
  obtain ⟨⟨answer, kept⟩, recorded, ran⟩ := except_bind_eq_ok.mp ran
  cases ran
  refine ⟨Option.isNone_iff_eq_none.mp idle, ?_⟩
  cases input with
  | none =>
    cases recorded
    exact ⟨rfl, fun _ => rfl, nofun⟩
  | some input =>
    obtain ⟨⟨made, after⟩, ran, same⟩ := except_map_eq_ok.mp recorded
    obtain ⟨facts, rfl⟩ := record_eq_ok ran
    cases same
    exact ⟨rfl, nofun, fun _ => ⟨made, rfl, facts⟩⟩

end Exploration

namespace ExploreRound

variable {round changed : ExploreRound}

/-- Recording an attempt changes what was sent at its request only. -/
theorem sent_insert (turns : SortedMap String InterviewDelivery) (id : String)
    (delivery : InterviewDelivery) :
    (fun request => ((turns.insert id delivery).lookup request).map fun record =>
        (record.attempt, record.request)) =
      Function.update (fun request => (turns.lookup request).map fun record =>
        (record.attempt, record.request)) id (some (delivery.attempt, delivery.request)) := by
  funext request
  rw [SortedMap.lookup_insert, Function.update_apply]
  split_ifs with same other other
  · rfl
  · exact absurd same.symm other
  · exact absurd other.symm same
  · rfl

theorem resend_move {request : TurnRequest} {previous : InterviewDelivery} {attempt : String}
    {new : Bool} (sent : round.turns.lookup request.request = some previous)
    (home : round.dialogue.Home request) (named : attempt ≠ "")
    (ran : round.resend request previous attempt = .ok (new, changed)) :
    new = false ∧ Move round.dialogue (.resent request) changed.dialogue := by
  obtain ⟨latest, content, unsaved, ran⟩ := by
    simpa only [resend, ensure_bind_eq_ok] using ran
  cases ran
  have unsaved : ∀ turn ∈ round.exploration.conversation,
      turn.update.request ≠ request.request := by simpa using unsaved
  obtain ⟨current, retry, same⟩ := (Option.any_eq_true _ _).mp latest.1
  have before : round.dialogue.sent request.request = some (previous.attempt, previous.request) := by
    simp [dialogue, sent]
  have moved : Move round.dialogue (.resent request) (round.dialogue.resend attempt request) :=
    .resend before retry (of_decide_eq_true same) home named content.1 unsaved
  exact ⟨rfl, by simpa only [Dialogue.resend, dialogue, sent_insert] using moved⟩

theorem admitAnswer_eq_ok {expected : Option ReviewerAnswer} {request : TurnRequest}
    {answers : List ReviewerAnswer} (ran : round.admitAnswer expected request = .ok answers)
    (without : request.answer = none → expected = none)
    (recorded : request.answer.isSome = true → ∃ answer, expected = some answer ∧
      Exploration.Recorded round.exploration (request.answer.bind (·.question)) answer) :
    answers = round.exploration.answers ++ request.answer.toList ∧
      ∀ answer, request.answer = some answer → round.dialogue.Admits answer := by
  cases given : request.answer with
  | none =>
    simp only [without given, admitAnswer, given, Except.ok.injEq] at ran
    exact ⟨by simp [ran], fun _ absent => nomatch absent⟩
  | some answer =>
    obtain ⟨made, rfl, facts⟩ := recorded (by simp [given])
    simp only [admitAnswer, given] at ran
    obtain ⟨same, unused, ran⟩ := by simpa only [ensure_bind_eq_ok] using ran
    have unused : ∀ old ∈ round.exploration.answers, old.id ≠ answer.id := by simpa using unused
    refine ⟨(Except.ok.inj ran).symm, fun _ eq => Option.some.inj eq ▸ ?_⟩
    obtain ⟨id, rfl⟩ : ∃ id, answer = { made with id := id } := ⟨_, same.symm⟩
    exact ⟨unused, facts.checkpoint, facts.context, facts.option⟩

/-- A post asks a new request, or sends the one that waits for a retry again. -/
theorem post_move {request : TurnRequest} {fresh : FreshIds} {attempt : String} {new : Bool}
    (named : attempt ≠ "") (ran : round.post request fresh attempt = .ok (new, changed)) :
    (round.dialogue.sent request.request = none ∧
        Move round.dialogue (.asked request) changed.dialogue) ∨
      ((round.dialogue.sent request.request).isSome = true ∧
        Move round.dialogue (.resent request) changed.dialogue) := by
  obtain ⟨home, ran⟩ := ensure_bind_eq_ok.mp ran
  cases sent : round.turns.lookup request.request with
  | some previous =>
    rw [sent] at ran
    exact .inr ⟨by simp [dialogue, sent], (resend_move sent home named ran).2⟩
  | none =>
    rw [sent] at ran
    obtain ⟨⟨validated, _⟩, made, ran⟩ := except_bind_eq_ok.mp ran
    obtain ⟨cancelled, ran⟩ := ensure_bind_eq_ok.mp ran
    obtain ⟨answers, admitted, ran⟩ := except_bind_eq_ok.mp ran
    cases ran
    obtain ⟨idle, names, without, with_⟩ := Exploration.request_eq_ok made
    obtain ⟨rfl, admits⟩ := admitAnswer_eq_ok admitted (fun given => without (by simp [given]))
      (fun given => with_ (by simpa using given))
    have unsent : round.dialogue.sent request.request = none := by simp [dialogue, sent]
    have moved : Move round.dialogue (.asked request) (round.dialogue.ask attempt request) :=
      .ask idle unsent home (cancelled ▸ names) named admits
    exact .inl ⟨unsent, by simpa only [Dialogue.ask, dialogue, sent_insert] using moved⟩

/-- A change of a record that keeps its attempt and request changes nothing sent. -/
theorem sent_modify {ρ τ : Type} (records : SortedMap String ρ) (id : String) (change : ρ → ρ)
    (shown : ρ → τ) (same : ∀ record, shown (change record) = shown record) :
    (fun key => ((records.modify id change).lookup key).map shown) =
      fun key => (records.lookup key).map shown := by
  funext key
  rw [SortedMap.lookup_modify]
  split_ifs with here
  · subst here
    rw [Option.map_map]
    exact congrArg (Option.map · _) (funext same)
  · rfl

/-- A submission is a repeat, or the turn of the outstanding request. -/
theorem submit_cases {exploration kept : Exploration} {world : World} {update : InterviewUpdate}
    {new : Bool} (ran : exploration.submit world update = .ok (new, kept)) :
    (new = false ∧ kept = exploration) ∨
      new = true ∧ ∃ request, exploration.outstanding = some request ∧
        update.request = request.request ∧ update.instanceId = exploration.instanceId ∧
        (∀ turn ∈ exploration.conversation, turn.update.request ≠ update.request) ∧
        exploration.validate world update = .ok () ∧
        kept = { exploration with
          conversation := exploration.conversation ++ [⟨request.answer.map (·.id), update, none⟩]
          toDecided := exploration.toDecided.absorb update request.answer
          outstanding := none
          retry := none } := by
  obtain ⟨home, ran⟩ := ensure_bind_eq_ok.mp ran
  split at ran
  · obtain ⟨_, ran⟩ := ensure_bind_eq_ok.mp ran
    cases ran
    exact .inl ⟨rfl, rfl⟩
  · next unsaved =>
    obtain ⟨_, ran⟩ := ensure_bind_eq_ok.mp ran
    unfold Exploration.apply at ran
    split at ran
    · cases ran
      exact .inl ⟨rfl, rfl⟩
    · next request outstanding =>
      split_ifs at ran with other
      · cases ran
        exact .inl ⟨rfl, rfl⟩
      · obtain ⟨_, valid, ran⟩ := except_bind_eq_ok.mp ran
        cases ran
        have same : request.request = update.request := not_not.mp fun no => other (.inr no)
        exact .inr ⟨rfl, request, outstanding, same.symm, home, by simpa using unsaved, valid, rfl⟩

theorem dialogue_complete (update : InterviewUpdate) :
    (round.complete update).dialogue =
      { round.dialogue with completion := round.dialogue.completed update } := by
  unfold complete
  split_ifs with ends
  · have completed : round.dialogue.completed update = some _ := if_pos ends
    rw [completed]
    rfl
  · have completed : round.dialogue.completed update = round.completion := if_neg ends
    rw [completed]
    rfl

theorem submitted_moves {world : World} {now : Nat} {diverged : List String}
    {update : InterviewUpdate} {new : Bool}
    (ran : round.submitted world now diverged update = .ok (new, changed)) :
    (new = false ∧ changed = round) ∨
      new = true ∧ ∃ request, round.exploration.outstanding = some request ∧
        Move round.dialogue (.took request update) changed.dialogue := by
  obtain ⟨⟨applied, kept⟩, ran, rest⟩ := except_bind_eq_ok.mp ran
  obtain ⟨⟨applied', candidate⟩, submitted, ran⟩ := except_bind_eq_ok.mp ran
  rcases submit_cases submitted with ⟨rfl, rfl⟩ | ⟨rfl, request, outstanding, same, home, unsaved,
    valid, rfl⟩
  · cases ran
    cases rest
    exact .inl ⟨rfl, rfl⟩
  · cases ran
    cases rest
    have checked := validate_checked valid
    have answer : round.exploration.outstandingAnswer = request.answer := by
      rw [Exploration.outstandingAnswer, outstanding]; rfl
    have moved : Move round.dialogue (.took request update)
        (round.dialogue.accept request update) :=
      .accept outstanding same home unsaved (answer ▸ checked)
    have sent := sent_modify round.turns update.request
      (fun turn => { turn with diverged := mergeDiverged turn.diverged diverged })
      (fun record => (record.attempt, record.request)) fun _ => rfl
    refine .inr ⟨rfl, request, outstanding, ?_⟩
    rw [dialogue_complete]
    exact (congrArg (fun sent => Move round.dialogue (.took request update)
      { round.dialogue.accept request update with sent := sent }) sent).mpr moved

/-- A revision is a repeat, or a new version of the open question. -/
theorem revise_cases {exploration kept : Exploration} {world : World}
    {revision : QuestionRevision} {fresh : String} {new : Bool}
    (ran : exploration.revise world revision fresh = .ok (new, kept)) :
    (new = false ∧ kept = exploration) ∨
      new = true ∧ exploration.outstanding = none ∧ exploration.retry = none ∧
        ∃ previous question, exploration.conversation.getLast? = some previous ∧
          previous.update.next = some question ∧ revision.question.id = question.id ∧
          question.version < revision.question.version ∧
          exploration.validate world { Exploration.revisedUpdate previous.update revision fresh with
            reviewed := [], reopened := [] } = .ok () ∧
          kept = { exploration with
            conversation := exploration.conversation ++ [⟨previous.answer,
              Exploration.revisedUpdate previous.update revision fresh, some revision.revision⟩]
            toDecided := exploration.toDecided.absorb
              (Exploration.revisedUpdate previous.update revision fresh) none } := by
  obtain ⟨_, _, ran⟩ := by simpa only [Exploration.revise, ensure_bind_eq_ok] using ran
  split at ran
  · obtain ⟨_, ran⟩ := ensure_bind_eq_ok.mp ran
    cases ran
    exact .inl ⟨rfl, rfl⟩
  · obtain ⟨idle, ran⟩ := ensure_bind_eq_ok.mp ran
    split at ran
    · cases ran
    · next previous current found =>
      obtain ⟨newer, _, ran⟩ := by simpa only [ensure_bind_eq_ok] using ran
      obtain ⟨_, valid, ran⟩ := except_bind_eq_ok.mp ran
      cases ran
      obtain ⟨turn, last, open_⟩ := Option.bind_eq_some_iff.mp found
      obtain ⟨question, asked, pair⟩ := Option.map_eq_some_iff.mp open_
      cases pair
      exact .inr ⟨rfl, Option.isNone_iff_eq_none.mp idle.1, Option.isNone_iff_eq_none.mp idle.2,
        _, _, last, asked, newer.1, newer.2, valid, rfl⟩

theorem revise_moves {world : World} {revision : QuestionRevision} {fresh : String} {new : Bool}
    {kept : Exploration}
    (unused : ∀ turn ∈ round.exploration.conversation, turn.update.request ≠ fresh)
    (ran : round.exploration.revise world revision fresh = .ok (new, kept)) :
    (round.withExploration kept).dialogue = round.dialogue ∨
      ∃ turn, turn.update.request = fresh ∧
        round.exploration.validate world { turn.update with reviewed := [], reopened := [] } =
          .ok () ∧
        Move round.dialogue (.revised turn) (round.withExploration kept).dialogue := by
  rcases revise_cases ran with ⟨rfl, rfl⟩ |
    ⟨rfl, idle, rested, previous, _, last, _, _, _, valid, rfl⟩
  · exact .inl rfl
  · have answer : round.exploration.outstandingAnswer = none := by
      rw [Exploration.outstandingAnswer, idle]; rfl
    have checked := answer ▸ validate_checked valid
    let turn : ConversationTurn := ⟨previous.answer,
      Exploration.revisedUpdate previous.update revision fresh, some revision.revision⟩
    have moved : Move round.dialogue (.revised turn) (round.dialogue.revise turn) :=
      .revise idle rested last rfl rfl rfl rfl rfl rfl rfl unused
        ⟨checked.checkpoint, checked.ends, checked.interpretation, checked.prerequisites,
          checked.next, fun _ mem => absurd mem List.not_mem_nil⟩
    exact .inr ⟨turn, rfl, valid, moved⟩

theorem failed_moves {request error : String} :
    (round.withExploration (round.exploration.failed request error).2).dialogue = round.dialogue ∨
      Move round.dialogue .quiet
        (round.withExploration (round.exploration.failed request error).2).dialogue := by
  unfold Exploration.failed
  split_ifs
  · exact .inl rfl
  · exact .inr .fail

theorem retry_move {result : TurnRequest × Exploration}
    (ran : round.exploration.retryRequest = .ok result) :
    Move round.dialogue .retried (round.withExploration result.2).dialogue := by
  obtain ⟨idle, ran⟩ := ensure_bind_eq_ok.mp ran
  split at ran
  · cases ran
  · next request retry =>
    cases ran
    have moved : Move round.dialogue .retried
        { round.dialogue with outstanding := round.dialogue.retry } :=
      .retry (Option.isNone_iff_eq_none.mp idle)
    have same : round.dialogue.retry = some request := retry
    simpa only [same, dialogue, withExploration, retry] using moved

theorem authorize_move {request : ImplementationRequest} {attempt : String} {new : Bool}
    (named : attempt ≠ "") (ran : round.authorize request attempt = .ok (new, changed)) :
    Move round.dialogue .implemented changed.dialogue := by
  obtain ⟨_, ⟨home, current⟩, ran⟩ := by simpa only [authorize, ensure_bind_eq_ok] using ran
  obtain ⟨_, _, ran⟩ := except_bind_eq_ok.mp ran
  have concluded : ∃ turn ∈ round.exploration.conversation,
      turn.update.request = request.conclusion ∧ turn.update.conclusion.isSome = true := by
    unfold Exploration.conclusionRequest at current
    split_ifs at current
    obtain ⟨turn, last, same⟩ := Option.map_eq_some_iff.mp current
    obtain ⟨last, ends⟩ := Option.filter_eq_some_iff.mp last
    exact ⟨turn, List.mem_of_getLast? last, same, ends⟩
  have moved : Move round.dialogue .implemented (round.dialogue.implement attempt request) :=
    .implement named home concluded
  have inserted : ∀ delivery : ImplementationDelivery, delivery.attempt = attempt →
      delivery.request = request → { round with
        implementations := round.implementations.insert request.delivery delivery }.dialogue =
          round.dialogue.implement attempt request := by
    rintro delivery rfl rfl
    simp only [dialogue, Dialogue.implement, Dialogue.mk.injEq, true_and]
    funext id
    rw [SortedMap.lookup_insert, Function.update_apply]
    split_ifs with same other other
    · rfl
    · exact absurd same.symm other
    · exact absurd other.symm same
    · rfl
  split at ran
  · next previous _ =>
    obtain ⟨same, _, ran⟩ := by simpa only [ensure_bind_eq_ok] using ran
    cases ran
    rw [inserted { previous with attempt := attempt, state := .queued } rfl same]
    exact moved
  · cases ran
    rw [inserted _ rfl rfl]
    exact moved

theorem dialogue_setDispatchState (state : DispatchState) (id : DispatchId) :
    (round.setDispatchState state id).dialogue = round.dialogue := by
  cases id with
  | interview request _ =>
    have sent := sent_modify round.turns request (fun record => { record with state := state })
      (fun record => (record.attempt, record.request)) fun _ => rfl
    exact congrArg (fun sent => { round.dialogue with sent := sent }) sent
  | implementation request _ =>
    have sent := sent_modify round.implementations request
      (fun record => { record with state := state })
      (fun record => (record.attempt, record.request)) fun _ => rfl
    exact congrArg (fun sent => { round.dialogue with implemented := sent }) sent

theorem dialogue_started (now : Nat) (id : DispatchId) :
    (round.started now id).dialogue = round.dialogue := by
  cases id with
  | interview request _ =>
    have sent := sent_modify round.turns request (fun record => { record with startedAtMs := some now })
      (fun record => (record.attempt, record.request)) fun _ => rfl
    exact congrArg (fun sent => { round.dialogue with sent := sent }) sent
  | implementation _ _ => rfl

theorem dialogue_delivered (result : DispatchResult) (now : Nat) :
    (round.delivered result now).dialogue = round.dialogue := by
  unfold delivered
  split
  · next request _ _ _ =>
    have sent := sent_modify round.implementations request
      (fun record => { record with sentAtMs := some now })
      (fun record => (record.attempt, record.request)) fun _ => rfl
    exact congrArg (fun sent => { round.dialogue with implemented := sent }) sent
  · rfl

/-- A dispatch that begins is the one that waits. -/
theorem beginDispatch_eq_ok {id : DispatchId} {agent : Agent} {now : Nat}
    (ran : round.beginDispatch id agent now = .ok changed) :
    round.dispatchState id = some .queued ∧
      changed = (({ round with lastAgentSession := ConversationBinding.fromAgent agent }
        : ExploreRound).setDispatchState .attempting id).started now id := by
  obtain ⟨_, _, ran⟩ := except_bind_eq_ok.mp ran
  dsimp only at ran
  split at ran
  · cases ran
  · next state found =>
    obtain ⟨rfl, ran⟩ := ensure_bind_eq_ok.mp ran
    cases ran
    exact ⟨by cases id <;> exact found, rfl⟩

theorem dialogue_beginDispatch {id : DispatchId} {agent : Agent} {now : Nat}
    (ran : round.beginDispatch id agent now = .ok changed) :
    changed.dialogue = round.dialogue := by
  rw [(beginDispatch_eq_ok ran).2, dialogue_started, dialogue_setDispatchState]
  rfl

theorem dialogue_finishDispatch (result : DispatchResult) (now : Nat) :
    (round.finishDispatch result now).dialogue = round.dialogue := by
  unfold finishDispatch
  split
  · split_ifs
    · rw [dialogue_delivered, dialogue_setDispatchState]
    · rfl
  · rfl

theorem dialogue_forget (request : String) : (round.forget request).2.dialogue =
    { round.dialogue with
      sent := fun id => if id = request then none else round.dialogue.sent id
      completion := round.completion.filter (·.request ≠ request) } := by
  have sent : (fun id => ((round.turns.erase request).lookup id).map fun record =>
      (record.attempt, record.request)) =
        fun id => if id = request then none else round.dialogue.sent id := by
    funext id
    rw [SortedMap.lookup_erase]
    by_cases same : id = request
    · rw [if_pos same.symm, if_pos same, Option.map_none]
    · rw [if_neg (Ne.symm same), if_neg same]
      rfl
  rw [← sent]
  rfl

theorem dialogue_forgetAll (requests : List String) : (forgetAll requests round).2.dialogue =
    { round.dialogue with
      sent := fun id => if id ∈ requests then none else round.dialogue.sent id
      completion := round.completion.filter (·.request ∉ requests) } := by
  induction requests generalizing round with
  | nil =>
    have kept : round.completion = round.completion.filter fun _ => true := by
      cases round.completion <;> rfl
    simpa [forgetAll, dialogue] using kept
  | cons request requests ih =>
    have rest := @ih (round.forget request).2
    rw [dialogue_forget] at rest
    rw [forgetAll, rest]
    simp only [Dialogue.mk.injEq, true_and, and_true]
    refine ⟨funext fun id => ?_, ?_⟩
    · by_cases first : id = request <;> by_cases later : id ∈ requests <;> simp [first, later]
    · refine Option.filter_filter.trans (congrArg (round.completion.filter ·) ?_)
      funext completion
      simp [not_or]

theorem dialogue_forgetApplied (answer : ReviewerAnswer) :
    (round.forgetApplied answer).2.dialogue = round.dialogue := by
  unfold forgetApplied
  split
  · split_ifs <;> rfl
  · rfl

theorem mem_requestsWith {id request : String} {named : Option String} :
    request ∈ round.requestsWith id named ↔
      (round.dialogue.sent request).any (·.2.carries id) = true ∨ named = some request := by
  simp only [requestsWith, List.mem_append, List.mem_map, List.mem_filter, Option.mem_toList,
    Prod.exists, exists_and_right, exists_eq_right, ← SortedMap.lookup_eq_some, dialogue]
  refine or_congr_left ⟨?_, fun carried => ?_⟩
  · rintro ⟨record, found, carries⟩
    simpa [found] using carries
  · obtain ⟨sent, found, carries⟩ := (Option.any_eq_true _ _).mp carried
    obtain ⟨record, held, rfl⟩ := Option.map_eq_some_iff.mp found
    exact ⟨record, held, carries⟩

/-- What the interview without an answer leaves of the dialogue, before its requests go. -/
theorem dialogue_withoutAnswer (id : String) (rest : List String) :
    let kept := round.exploration.withoutAnswer id
    let kept := if (round.exploration.tookUp id).isSome then kept.withoutTurns id else kept
    (round.withExploration { kept with cancelled := rest }).dialogue =
      { round.dialogue.withdraw id with
        cancelled := rest
        sent := round.dialogue.sent
        completion := round.completion } := by
  have pending : round.dialogue.pendingWith id = round.exploration.pendingWith id := rfl
  have followed : round.dialogue.tookUp id = round.exploration.tookUp id := rfl
  have unfollowed : round.exploration.tookUp id = none →
      round.exploration.conversation.filter (fun turn => turn.answer ≠ some id) =
        round.exploration.conversation := fun none => by
    simpa [Exploration.tookUp, List.filter_eq_self] using none
  by_cases took : (round.exploration.tookUp id).isSome = true
  · simp only [Dialogue.withdraw, pending, followed, Exploration.withoutAnswer, took, ↓reduceIte]
    split_ifs <;> rfl
  · have same : round.dialogue.conversation.filter (fun turn => turn.answer ≠ some id) =
        round.dialogue.conversation := unfollowed (Option.not_isSome_iff_eq_none.mp took)
    simp only [Dialogue.withdraw, pending, followed, Exploration.withoutAnswer, took, same,
      Bool.false_eq_true, ↓reduceIte]
    split_ifs <;> rfl

theorem isEmpty_implementations :
    round.implementations.isEmpty = true ↔ ∀ delivery, round.dialogue.implemented delivery = none := by
  simp [SortedMap.isEmpty_iff, dialogue]

/-- The latest answer can be cancelled until an implementation is requested. -/
theorem cancelAnswer_ok {answer : ReviewerAnswer}
    (last : round.exploration.answers.getLast? = some answer)
    (idle : ∀ delivery, round.dialogue.implemented delivery = none) :
    ∃ cancelled kept, round.cancelAnswer answer.id = .ok (cancelled, kept) ∧
      cancelled.answer = answer ∧ kept.dialogue = round.dialogue.withdraw answer.id := by
  let id := answer.id
  let pending := round.exploration.pendingWith id
  let request := (round.exploration.tookUp id).or (pending.map (·.request))
  let kept := round.exploration.withoutAnswer id
  let kept := if (round.exploration.tookUp id).isSome then kept.withoutTurns id else kept
  let rest := ((pending.map (·.cancelled)).getD []) ++ kept.cancelled ++ [id]
  let base := round.withExploration { kept with cancelled := rest }
  let requests := base.requestsWith id request
  let forgot := (forgetAll requests base).2
  let marks := (forgetAll requests base).1 ++ (forgot.forgetApplied answer).1
  have taken : round.exploration.cancelAnswer id = .ok (⟨answer, request, []⟩, base.exploration) := by
    rw [Exploration.cancelAnswer, last, Option.filter_some_pos (by simp [id])]
    rfl
  have ran : round.cancelAnswer id =
      .ok (⟨answer, request, marks⟩, (forgot.forgetApplied answer).2) := by
    rw [cancelAnswer, taken, ensure, if_pos (isEmpty_implementations.mpr idle)]
    rfl
  have forgets : ∀ other, other ∈ requests ↔ round.dialogue.forgets id other = true := fun other => by
    rw [mem_requestsWith, Dialogue.forgets, Bool.or_eq_true, beq_iff_eq]
    rfl
  have cancelled : kept.cancelled = round.exploration.cancelled := by
    have first : (round.exploration.withoutAnswer id).cancelled = round.exploration.cancelled := by
      unfold Exploration.withoutAnswer
      dsimp only
      split_ifs <;> rfl
    unfold kept
    split_ifs <;> exact first
  refine ⟨_, _, ran, rfl, ?_⟩
  rw [dialogue_forgetApplied, dialogue_forgetAll, dialogue_withoutAnswer]
  simp only [forgets, rest, cancelled, Dialogue.withdraw, Dialogue.mk.injEq, true_and, and_true]
  exact ⟨rfl, rfl, rfl, rfl, rfl, rfl, congrArg (round.completion.filter ·)
    (funext fun completion => by simp [id])⟩

theorem cancelAnswer_eq_ok {id : String} {cancelled : CancelledAnswer}
    (ran : round.cancelAnswer id = .ok (cancelled, changed)) :
    cancelled.answer.id = id ∧ Move round.dialogue (.withdrew id) changed.dialogue := by
  obtain ⟨idle, taken⟩ := ensure_bind_eq_ok.mp ran
  obtain ⟨_, last, _⟩ := except_bind_eq_ok.mp taken
  have idle := isEmpty_implementations.mp idle
  unfold Exploration.cancelAnswer at last
  split at last
  · cases last
  · next answer found =>
    obtain ⟨latest, same⟩ := Option.filter_eq_some_iff.mp found
    obtain rfl : answer.id = id := of_decide_eq_true same
    obtain ⟨cancelled', kept, ran', answered, moved⟩ := cancelAnswer_ok latest idle
    obtain ⟨rfl, rfl⟩ := Prod.mk.inj (Except.ok.inj (ran.symm.trans ran'))
    have withdrew : Move round.dialogue (.withdrew answer.id) (round.dialogue.withdraw answer.id) :=
      .withdraw latest idle
    exact ⟨congrArg (·.id) answered, moved ▸ withdrew⟩

theorem cancelUntil_path {id : String} {fuel : Nat} {cancelled : List CancelledAnswer}
    (ran : cancelUntil id fuel round = .ok (cancelled, changed)) :
    Path Move round.dialogue (cancelled.map fun answer => .withdrew answer.answer.id)
      changed.dialogue := by
  induction fuel generalizing round cancelled with
  | zero =>
    cases ran
    exact .nil
  | succ fuel ih =>
    unfold cancelUntil at ran
    split at ran
    · cases ran
      exact .nil
    · next latest _ =>
      obtain ⟨⟨first, kept⟩, took, ran⟩ := except_bind_eq_ok.mp ran
      obtain ⟨same, moved⟩ := cancelAnswer_eq_ok took
      rw [← same] at moved
      dsimp only at ran
      split_ifs at ran with last
      · cases ran
        exact .single moved
      · obtain ⟨⟨more, rest⟩, others, whole⟩ := except_bind_eq_ok.mp ran
        cases whole
        exact .cons moved (ih others)

theorem cancelAnswersFrom_path {id : String} {cancelled : List CancelledAnswer}
    (ran : round.cancelAnswersFrom id = .ok (cancelled, changed)) :
    Path Move round.dialogue (cancelled.map fun answer => .withdrew answer.answer.id)
      changed.dialogue :=
  cancelUntil_path (ensure_bind_eq_ok.mp ran).2

/-- What an operation makes up is new: an attempt has a name, and the turn of a revision
has a request of its own. -/
def Fresh (round : ExploreRound) : Action → Prop
  | .post _ _ attempt | .authorize _ attempt => attempt ≠ ""
  | .revise _ _ fresh => ∀ turn ∈ round.exploration.conversation, turn.update.request ≠ fresh
  | _ => True

instance (round : ExploreRound) : ∀ action, Decidable (round.Fresh action)
  | .post _ _ attempt | .authorize _ attempt => inferInstanceAs (Decidable (attempt ≠ ""))
  | .revise _ _ _ => inferInstanceAs (Decidable (∀ _ ∈ round.exploration.conversation, _ ≠ _))
  | .submit .. | .cancelAnswersFrom _ | .failed .. | .retry | .cancel | .beginDispatch .. |
    .finishDispatch .. | .pin _ | .mark .. => .isTrue trivial

end ExploreRound

/-- The moves an operation can make. -/
def Action.Makes : Action → Event → Prop
  | .post request _ _, .asked other | .post request _ _, .resent other => other = request
  | .submit _ _ _ update, .took _ other => other = update
  | .revise _ _ made, .revised turn => turn.update.request = made
  | .cancelAnswersFrom _, .withdrew _ => True
  | .retry, .retried => True
  | .authorize _ _, .implemented => True
  | .failed _ _, .quiet | .cancel, .quiet => True
  | _, _ => False

/-- An operation moves the dialogue at most once, or takes answers back. -/
inductive Action.Brings : Action → List Event → Prop
  | nothing {action : Action} : Brings action []
  | move {action : Action} {event : Event} : action.Makes event → Brings action [event]
  | back {id : String} (answers : List String) :
      Brings (.cancelAnswersFrom id) (answers.map .withdrew)

theorem Move.brings {action : Action} {event : Event} {before after : Dialogue}
    (moved : Move before event after) (makes : action.Makes event) :
    ∃ events, action.Brings events ∧ Path Move before events after :=
  ⟨_, .move makes, .single moved⟩

namespace ExploreRound

variable {round changed : ExploreRound}

/-- Every operation that succeeds moves the dialogue. -/
theorem run_path {action : Action} (fresh : round.Fresh action)
    (ran : round.run action = .ok changed) :
    ∃ events, action.Brings events ∧ Path Move round.dialogue events changed.dialogue := by
  cases action with
  | post request ids attempt =>
    obtain ⟨⟨new, _⟩, posted, rfl⟩ := except_map_eq_ok.mp ran
    rcases post_move fresh posted with ⟨_, moved⟩ | ⟨_, moved⟩
    · exact moved.brings rfl
    · exact moved.brings rfl
  | submit world now diverged update =>
    obtain ⟨⟨new, _⟩, submitted, rfl⟩ := except_map_eq_ok.mp ran
    rcases submitted_moves submitted with ⟨_, rfl⟩ | ⟨_, request, _, moved⟩
    · exact ⟨_, .nothing, .nil⟩
    · exact moved.brings rfl
  | revise world revision made =>
    obtain ⟨⟨new, kept⟩, revised, rfl⟩ := except_map_eq_ok.mp ran
    rcases revise_moves fresh revised with same | ⟨turn, named, _, moved⟩
    · exact ⟨_, .nothing, same ▸ .nil⟩
    · exact moved.brings named
  | cancelAnswersFrom id =>
    obtain ⟨⟨cancelled, _⟩, took, rfl⟩ := except_map_eq_ok.mp ran
    refine ⟨_, .back (cancelled.map (·.answer.id)), ?_⟩
    simpa only [List.map_map, Function.comp_def] using cancelAnswersFrom_path took
  | failed request error =>
    cases ran
    rcases @failed_moves round request error with same | moved
    · exact ⟨_, .nothing, same ▸ .nil⟩
    · exact moved.brings trivial
  | retry =>
    obtain ⟨_, retried, rfl⟩ := except_map_eq_ok.mp ran
    exact (retry_move retried).brings trivial
  | cancel =>
    cases ran
    exact Move.drop.brings trivial
  | authorize request attempt =>
    obtain ⟨⟨new, _⟩, authorized, rfl⟩ := except_map_eq_ok.mp ran
    exact (authorize_move fresh authorized).brings trivial
  | beginDispatch id agent now =>
    exact ⟨_, .nothing, dialogue_beginDispatch ran ▸ .nil⟩
  | finishDispatch result now =>
    cases ran
    exact ⟨_, .nothing, dialogue_finishDispatch result now ▸ .nil⟩
  | pin session =>
    cases ran
    exact ⟨_, .nothing, .nil⟩
  | mark request marks =>
    cases ran
    exact ⟨_, .nothing, .nil⟩

theorem step_path {action : Action} (fresh : round.Fresh action) :
    ∃ events, action.Brings events ∧
      Path Move round.dialogue events (round.step action).dialogue := by
  rcases round.step_eq action with same | ⟨changed, revision, ran, same⟩
  · rw [same]
    exact ⟨_, .nothing, .nil⟩
  · obtain ⟨events, brings, path⟩ := run_path fresh ran
    rw [same]
    exact ⟨events, brings, path⟩

/-- What survives the moves of an operation, and any answer taken back, survives the
operation. -/
theorem step_keeps (kept : Dialogue → Prop) {action : Action} (fresh : round.Fresh action)
    (held : kept round.dialogue)
    (moves : ∀ event after, action.Makes event → Move round.dialogue event after → kept after)
    (withdraws : ∀ before after answer, kept before → Move before (.withdrew answer) after →
      kept after) : kept (round.step action).dialogue := by
  obtain ⟨events, brings, path⟩ := step_path fresh
  cases brings with
  | nothing => exact path_nil.mp path ▸ held
  | move makes => exact moves _ _ makes (path_singleton.mp path)
  | back answers =>
    refine path.invariant held fun before after event mem held moved => ?_
    obtain ⟨answer, _, rfl⟩ := List.mem_map.mp mem
    exact withdraws before after answer held moved

theorem step_of_refused {action : Action} (refused : ¬∃ changed, round.run action = .ok changed) :
    round.step action = round := by
  rcases round.step_eq action with same | ⟨changed, _, ran, _⟩
  · exact same
  · exact absurd ⟨changed, ran⟩ refused

theorem step_of_run_self {action : Action} (ran : round.run action = .ok round) :
    round.step action = round := by
  have saved : updateRound (fun saved => saved.run action) round = .ok round :=
    except_bind_eq_ok.mpr ⟨round, ran, if_pos rfl⟩
  rw [step, saved]

end ExploreRound

end ProgressiveReviewer.Explore
