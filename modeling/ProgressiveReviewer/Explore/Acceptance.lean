import ProgressiveReviewer.Explore.Coherence

/-! A request's turn is accepted at most once, and never after the request was let go
(`review-explore/src/interview.rs`, `durable.rs`). -/

namespace ProgressiveReviewer.Explore

open Library

namespace Dialogue

/-- Pending requests, and the turns that revise a question, have requests of their own. -/
structure Unsaved (d : Dialogue) : Prop where
  pending : ∀ request, d.retry = some request → ∀ turn ∈ d.conversation,
    turn.update.request ≠ request.request
  revised : ∀ turn ∈ d.conversation, turn.revision.isSome = true → d.sent turn.update.request = none

/-- The request is not on its way, and no turn answered it. -/
def LetGo (d : Dialogue) (id : String) : Prop :=
  (∀ request, d.outstanding = some request → request.request ≠ id) ∧
    ∀ turn ∈ d.conversation, turn.update.request ≠ id

variable {d after : Dialogue} {event : Event} {id : String}

/-- The identities that a move makes up are used by nothing else. -/
def Distinct (d : Dialogue) : Event → Prop
  | .asked request => ∀ turn ∈ d.conversation, turn.revision.isSome = true →
      turn.update.request ≠ request.request
  | .revised turn => d.sent turn.update.request = none
  | _ => True

theorem Unsaved.move (unsaved : d.Unsaved) (coherent : d.Coherent) (moved : Move d event after)
    (distinct : d.Distinct event) : after.Unsaved := by
  cases moved with
  | @ask _ request _ unsent _ _ _ _ =>
    refine ⟨?_, fun turn mem revised => ?_⟩
    · rintro _ ⟨⟩ turn mem same
      cases revised : turn.revision with
      | some revision => exact distinct turn mem (by simp [revised]) same
      | none =>
        obtain ⟨_, sent, _⟩ := coherent.recorded turn mem revised
        rw [same, unsent] at sent; cases sent
    · exact (Function.update_of_ne (distinct turn mem revised) ..).trans
        (unsaved.revised turn mem revised)
  | @resend _ request _ _ _ _ _ _ _ _ fresh =>
    refine ⟨?_, fun turn mem revised => ?_⟩
    · rintro _ ⟨⟩
      exact fresh
    · exact (Function.update_of_ne (fresh turn mem) ..).trans (unsaved.revised turn mem revised)
  | accept _ _ _ _ _ =>
    refine ⟨fun _ absent => (nomatch absent), List.forall_mem_append.mpr ⟨unsaved.revised, ?_⟩⟩
    rintro turn mem revised
    obtain rfl := List.mem_singleton.mp mem
    cases revised
  | revise _ rested _ _ _ _ _ _ _ _ _ _ =>
    refine ⟨fun request retry => ?_, List.forall_mem_append.mpr ⟨unsaved.revised, ?_⟩⟩
    · rw [Dialogue.revise, rested] at retry; cases retry
    · intro turn mem _
      obtain rfl := List.mem_singleton.mp mem
      exact distinct
  | drop => exact { unsaved with }
  | fail =>
    refine { unsaved with pending := fun request retry => ?_ }
    obtain ⟨previous, held, rfl⟩ := Option.map_eq_some_iff.mp retry
    exact unsaved.pending previous held
  | retry _ => exact { unsaved with }
  | withdraw _ _ =>
    refine ⟨fun request retry turn mem => ?_, fun turn mem revised => ?_⟩
    · dsimp only [Dialogue.withdraw] at retry
      split_ifs at retry
      exact unsaved.pending request retry turn (List.mem_filter.mp mem).1
    · have unsent := unsaved.revised turn (List.mem_filter.mp mem).1 revised
      simp [Dialogue.withdraw, unsent]
  | implement _ _ _ => exact { unsaved with }

/-- The moves that could send the request again, or a turn that takes its name. -/
def Revives (d : Dialogue) (id : String) : Event → Prop
  | .asked request | .resent request => request.request = id
  | .revised turn => turn.update.request = id
  | .retried => ∃ request, d.retry = some request ∧ request.request = id
  | _ => False

theorem LetGo.move (gone : d.LetGo id) (moved : Move d event after) (rests : ¬d.Revives id event) :
    after.LetGo id := by
  cases moved with
  | ask | resend => exact ⟨by rintro _ ⟨⟩; exact rests, gone.2⟩
  | accept outstanding same =>
    refine ⟨fun _ absent => (nomatch absent), List.forall_mem_append.mpr ⟨gone.2, fun turn mem => ?_⟩⟩
    obtain rfl := List.mem_singleton.mp mem
    exact same ▸ gone.1 _ outstanding
  | revise =>
    refine ⟨gone.1, List.forall_mem_append.mpr ⟨gone.2, fun turn mem => ?_⟩⟩
    obtain rfl := List.mem_singleton.mp mem
    exact rests
  | drop => exact ⟨fun _ absent => (nomatch absent), gone.2⟩
  | fail => exact ⟨fun _ absent => (nomatch absent), gone.2⟩
  | retry => exact ⟨fun request held same => rests ⟨request, held, same⟩, gone.2⟩
  | withdraw =>
    refine ⟨fun request held => ?_, fun turn mem => gone.2 turn (List.mem_filter.mp mem).1⟩
    dsimp only [Dialogue.withdraw] at held
    split_ifs at held
    exact gone.1 request held
  | implement => exact gone

/-- A request goes when the answer it carried does. -/
theorem letGo_of_withdraw (coherent : d.Coherent) (unsaved : d.Unsaved) {answer : ReviewerAnswer}
    {entry : String × TurnRequest} (sent : d.sent id = some entry)
    (given : entry.2.answer = some answer) : (d.withdraw answer.id).LetGo id := by
  refine ⟨fun request held same => ?_, fun turn mem same => ?_⟩
  · dsimp only [Dialogue.withdraw] at held
    split_ifs at held with pending
    have retry := coherent.retry_of_outstanding held
    obtain ⟨record, found, carried⟩ := coherent.retried request retry
    rw [same, sent] at found
    obtain rfl := Option.some.inj found
    have carries : request.carries answer.id = true := by simp [TurnRequest.carries, ← carried, given]
    exact pending (by simp [pendingWith, retry, carries])
  · obtain ⟨mem, kept⟩ := List.mem_filter.mp mem
    cases revised : turn.revision with
    | some revision =>
      have unsent := unsaved.revised turn mem (by simp [revised])
      rw [same, sent] at unsent; cases unsent
    | none =>
      obtain ⟨record, found, followed⟩ := coherent.recorded turn mem revised
      rw [same, sent] at found
      obtain rfl := Option.some.inj found
      rw [given] at followed
      exact of_decide_eq_true kept followed.symm

/-- A post replaces the request that waited for a retry. -/
theorem Unsaved.letGo_of_post (unsaved : d.Unsaved) {request current : TurnRequest}
    (moved : Move d (.asked request) after ∨ Move d (.resent request) after)
    (retry : d.retry = some current) (other : request.request ≠ current.request) :
    after.LetGo current.request := by
  rcases moved with moved | moved
  · cases moved with
    | ask =>
      refine ⟨?_, unsaved.pending current retry⟩
      rintro _ ⟨⟩
      exact other
  · cases moved with
    | resend _ again same =>
      rw [retry] at again
      exact absurd (Option.some.inj again ▸ same).symm other

/-- The request is on record with an answer of the dialogue, or is let go. -/
def Tracks (d : Dialogue) (id : String) (answer : ReviewerAnswer) : Prop :=
  (∃ entry, d.sent id = some entry ∧ entry.2.answer = some answer ∧ answer ∈ d.answers) ∨ d.LetGo id

/-- A request stays on record while the answer it carries does. -/
theorem sent_of_kept (coherent : d.Coherent) {answer : ReviewerAnswer} {latest : String}
    {entry : String × TurnRequest} (sent : d.sent id = some entry)
    (given : entry.2.answer = some answer) (differs : answer.id ≠ latest) :
    (d.withdraw latest).sent id = some entry := by
  refine (if_neg fun forgets => differs ?_).trans sent
  have carries := TurnRequest.carries_iff.mp (coherent.carries_of_forgets forgets sent)
  simpa [given] using carries

theorem Tracks.withdraw {answer : ReviewerAnswer} (tracks : d.Tracks id answer)
    (coherent : d.Coherent) (unsaved : d.Unsaved) {latest : String}
    (moved : Move d (.withdrew latest) after) : after.Tracks id answer := by
  rcases tracks with ⟨entry, sent, given, mem⟩ | gone
  · cases moved with
    | @withdraw latest last _ =>
      by_cases same : answer.id = latest.id
      · exact .inr (same ▸ letGo_of_withdraw coherent unsaved sent given)
      · exact .inl ⟨entry, sent_of_kept coherent sent given same, given,
          Coherent.mem_dropLast last mem same⟩
  · exact .inr (gone.move moved fun no => no)

end Dialogue

namespace ExploreRound

variable {start round : ExploreRound} {action : Action} {update : InterviewUpdate} {id : String}

/-- The request ids that posts and revisions make up are their own. -/
def Identified (round : ExploreRound) (action : Action) : Prop :=
  round.Fresh action ∧ match action with
    | .post request _ _ => ∀ turn ∈ round.exploration.conversation, turn.revision.isSome = true →
        turn.update.request ≠ request.request
    | .revise _ _ made => round.turns.lookup made = none
    | _ => True

instance (round : ExploreRound) : ∀ action, Decidable (round.Identified action)
  | .post request ids attempt => inferInstanceAs (Decidable (round.Fresh (.post request ids attempt) ∧
      ∀ turn ∈ round.exploration.conversation, turn.revision.isSome = true →
        turn.update.request ≠ request.request))
  | .revise world revision made => inferInstanceAs (Decidable
      (round.Fresh (.revise world revision made) ∧ round.turns.lookup made = none))
  | .submit .. | .cancelAnswersFrom _ | .failed .. | .retry | .cancel | .authorize .. |
    .beginDispatch .. | .finishDispatch .. | .pin _ | .mark .. =>
    inferInstanceAs (Decidable (round.Fresh _ ∧ True))

theorem Identified.distinct (identified : round.Identified action) {event : Event}
    (makes : action.Makes event) : round.dialogue.Distinct event := by
  obtain ⟨_, own⟩ := identified
  cases action <;> cases event <;> first
    | exact makes.elim
    | trivial
    | skip
  · exact (show _ = _ from makes) ▸ own
  · rw [Dialogue.Distinct, show _ = _ from makes]
    simpa [dialogue] using own

theorem step_unsaved (coherent : round.dialogue.Coherent) (unsaved : round.dialogue.Unsaved)
    (identified : round.Identified action) : (round.step action).dialogue.Coherent ∧
      (round.step action).dialogue.Unsaved :=
  step_keeps (fun d => d.Coherent ∧ d.Unsaved) identified.1 ⟨coherent, unsaved⟩
    (fun _ _ makes moved =>
      ⟨coherent.move moved, unsaved.move coherent moved (identified.distinct makes)⟩)
    fun _ _ _ held moved => ⟨held.1.move moved, held.2.move held.1 moved trivial⟩

theorem unsaved_of_reaches (new : start.IsNew) (run : Reaches step Identified start round) :
    round.dialogue.Coherent ∧ round.dialogue.Unsaved := by
  induction run with
  | start =>
    refine ⟨new.coherent, ?_⟩
    obtain ⟨_, _, _, _, _, _, rfl⟩ := new
    exact ⟨fun _ absent => (nomatch absent), fun _ mem => absurd mem List.not_mem_nil⟩
  | step _ _ may ih => exact step_unsaved ih.1 ih.2 may

/-- The operations that let a request go: it is cancelled, replaced, or its answer is
cancelled. -/
def LetsGo (round : ExploreRound) (id : String) : Action → Prop
  | .cancel => ∃ request, round.exploration.outstanding = some request ∧ request.request = id
  | .post request _ _ => request.request ≠ id ∧
      ∃ current, round.exploration.retry = some current ∧ current.request = id
  | .cancelAnswersFrom first => ∃ record answer, round.turns.lookup id = some record ∧
      record.request.answer = some answer ∧
      answer ∉ (round.step (.cancelAnswersFrom first)).exploration.answers
  | _ => False

/-- The operations that send a request again, or make up a turn with its name. -/
def Revives (round : ExploreRound) (id : String) : Action → Prop
  | .post request _ _ => request.request = id
  | .revise _ _ made => made = id
  | .retry => ∃ request, round.exploration.retry = some request ∧ request.request = id
  | _ => False

theorem Revives.of_makes {event : Event} (makes : action.Makes event)
    (revives : round.dialogue.Revives id event) : round.Revives id action := by
  cases event <;> first | exact revives.elim | skip
  all_goals cases action <;> first | exact makes.elim | skip
  · exact (show _ = _ from makes) ▸ revives
  · exact (show _ = _ from makes) ▸ revives
  · exact (show _ = _ from makes) ▸ revives
  · exact revives

theorem step_letGo (gone : round.dialogue.LetGo id) (fresh : round.Fresh action)
    (rests : ¬round.Revives id action) : (round.step action).dialogue.LetGo id :=
  step_keeps (·.LetGo id) fresh gone
    (fun _ _ makes moved => gone.move moved fun revives => rests (.of_makes makes revives))
    fun _ _ _ held moved => held.move moved fun no => no

theorem foldl_letGo {more : List Action} (gone : round.dialogue.LetGo id)
    (may : AllAllowed step (fun round action => round.Fresh action ∧ ¬round.Revives id action)
      round more) : (more.foldl step round).dialogue.LetGo id := by
  induction more generalizing round with
  | nil => exact gone
  | cons action more ih => exact ih (step_letGo gone may.1.1 may.1.2) may.2

theorem letGo_of_letsGo (coherent : round.dialogue.Coherent) (unsaved : round.dialogue.Unsaved)
    (fresh : round.Fresh action) (saved : round.step action ≠ round)
    (goes : round.LetsGo id action) : (round.step action).dialogue.LetGo id := by
  obtain ⟨changed, revision, ran, same⟩ := (round.step_eq action).resolve_left saved
  have done : (round.step action).dialogue = changed.dialogue := by rw [same]; rfl
  cases action with
  | cancel =>
    obtain ⟨request, outstanding, rfl⟩ := goes
    cases ran
    rw [done]
    exact ⟨fun _ absent => (by cases absent),
      unsaved.pending request (coherent.retry_of_outstanding outstanding)⟩
  | post request ids attempt =>
    obtain ⟨other, current, retry, rfl⟩ := goes
    obtain ⟨⟨new, posted⟩, ran', rfl⟩ := except_map_eq_ok.mp ran
    rw [done]
    exact unsaved.letGo_of_post ((post_move fresh ran').imp And.right And.right) retry other
  | cancelAnswersFrom first =>
    obtain ⟨record, answer, found, given, gone⟩ := goes
    have sent : round.dialogue.sent id = some (record.attempt, record.request) := by
      simp [dialogue, found]
    have tracks : round.dialogue.Tracks id answer :=
      .inl ⟨_, sent, given, coherent.carried _ _ _ sent given⟩
    have withdraws : ∀ before after latest,
        before.Coherent ∧ before.Unsaved ∧ before.Tracks id answer →
        Move before (.withdrew latest) after →
        after.Coherent ∧ after.Unsaved ∧ after.Tracks id answer := by
      rintro _ _ _ ⟨coherent, unsaved, tracks⟩ moved
      exact ⟨coherent.move moved, unsaved.move coherent moved trivial,
        tracks.withdraw coherent unsaved moved⟩
    obtain ⟨_, _, tracks⟩ := step_keeps (fun d => d.Coherent ∧ d.Unsaved ∧ d.Tracks id answer)
      fresh ⟨coherent, unsaved, tracks⟩
      (fun event after makes moved => by
        cases event with
        | withdrew latest => exact withdraws _ _ latest ⟨coherent, unsaved, tracks⟩ moved
        | _ => exact makes.elim)
      withdraws
    refine tracks.resolve_left ?_
    rintro ⟨_, _, _, mem⟩
    exact gone mem
  | _ => exact goes.elim

section Submit

variable {world : World} {now : Nat} {diverged : List String} {turn : ConversationTurn}

theorem submitted_of_letGo (gone : round.dialogue.LetGo update.request) :
    ¬∃ result, round.submitted world now diverged update = .ok result := by
  rintro ⟨_, ran⟩
  obtain ⟨_, ran, _⟩ := except_bind_eq_ok.mp ran
  obtain ⟨_, ran, _⟩ := except_bind_eq_ok.mp ran
  obtain ⟨_, ran⟩ := ensure_bind_eq_ok.mp ran
  split at ran
  · next previous found =>
    exact gone.2 previous (List.mem_of_find?_eq_some found) (by simpa using List.find?_some found)
  · obtain ⟨waits, _⟩ := ensure_bind_eq_ok.mp ran
    obtain ⟨request, outstanding, same⟩ := (Option.any_eq_true _ _).mp waits
    exact gone.1 request outstanding (of_decide_eq_true same)

/-- The turn of a request is the one its conversation has. -/
theorem find_turn (coherent : round.dialogue.Coherent) (mem : turn ∈ round.exploration.conversation) :
    (round.exploration.conversation.find? fun other =>
      other.update.request = turn.update.request) = some turn := by
  have nodup : (round.exploration.conversation.map (·.update.request)).Nodup := coherent.requests
  exact Keyed.find_self nodup mem

theorem submitted_again (coherent : round.dialogue.Coherent)
    (mem : turn ∈ round.exploration.conversation) :
    round.submitted world now diverged turn.update = .ok (false, round) := by
  have home : turn.update.instanceId = round.exploration.instanceId := coherent.homes turn mem
  have again : round.exploration.submit world turn.update = .ok (false, round.exploration) := by
    rw [Exploration.submit, ensure, if_pos home, find_turn coherent mem]
    dsimp only
    rw [ensure, if_pos rfl]
    rfl
  rw [submitted, submit, again]
  rfl

theorem submitted_other (coherent : round.dialogue.Coherent)
    (mem : turn ∈ round.exploration.conversation) (same : update.request = turn.update.request)
    (differs : update ≠ turn.update) :
    ¬∃ result, round.submitted world now diverged update = .ok result := by
  rintro ⟨_, ran⟩
  obtain ⟨_, ran, _⟩ := except_bind_eq_ok.mp ran
  obtain ⟨_, ran, _⟩ := except_bind_eq_ok.mp ran
  obtain ⟨_, ran⟩ := ensure_bind_eq_ok.mp ran
  rw [same, find_turn coherent mem] at ran
  exact differs (ensure_bind_eq_ok.mp ran).1.symm

end Submit

/-- A request that a turn answered is not sent again. -/
theorem post_answered (coherent : round.dialogue.Coherent) {turn : ConversationTurn} (mem : turn ∈ round.exploration.conversation)
    {request : TurnRequest} (same : request.request = turn.update.request) {ids : FreshIds}
    {attempt : String} (identified : round.Identified (.post request ids attempt)) :
    ¬∃ result, round.post request ids attempt = .ok result := by
  rintro ⟨⟨new, posted⟩, ran⟩
  have first : turn.revision = none := by
    cases revised : turn.revision with
    | none => rfl
    | some revision => exact absurd same.symm (identified.2 turn mem (by simp [revised]))
  obtain ⟨entry, sent, _⟩ := coherent.recorded turn mem first
  rw [← same] at sent
  rcases post_move identified.1 ran with ⟨unsent, _⟩ | ⟨_, moved⟩
  · rw [sent] at unsent; cases unsent
  · generalize posted.dialogue = after at moved
    cases moved with
    | resend _ retry again _ _ _ fresh => exact fresh turn mem same.symm

theorem accepted_once (new : start.IsNew) (run : Reaches step Identified start round) :
    (round.exploration.conversation.map (·.update.request)).Nodup ∧
      (∀ turn ∈ round.exploration.conversation, ∀ world now diverged,
        round.submitted world now diverged turn.update = .ok (false, round) ∧
        round.step (.submit world now diverged turn.update) = round ∧
        ∀ update, update.request = turn.update.request → update ≠ turn.update →
          (¬∃ result, round.submitted world now diverged update = .ok result) ∧
            round.step (.submit world now diverged update) = round) ∧
      (∀ id action, round.Identified action → round.step action ≠ round → round.LetsGo id action →
        ∀ more, AllAllowed step (fun round action => round.Fresh action ∧ ¬round.Revives id action)
          (round.step action) more →
        ∀ world now diverged update, update.request = id →
          (¬∃ result, (more.foldl step (round.step action)).submitted world now diverged update =
              .ok result) ∧
            (more.foldl step (round.step action)).step (.submit world now diverged update) =
              more.foldl step (round.step action)) ∧
      ∀ turn ∈ round.exploration.conversation, ∀ request ids attempt,
        request.request = turn.update.request → round.Identified (.post request ids attempt) →
        (¬∃ result, round.post request ids attempt = .ok result) ∧
          round.step (.post request ids attempt) = round ∧
          ∀ outstanding, round.exploration.outstanding = some outstanding →
            outstanding.request ≠ request.request := by
  obtain ⟨coherent, unsaved⟩ := unsaved_of_reaches new run
  have refuses : ∀ {round : ExploreRound} {world now diverged update},
      (¬∃ result, round.submitted world now diverged update = .ok result) →
        (¬∃ result, round.submitted world now diverged update = .ok result) ∧
          round.step (.submit world now diverged update) = round := fun refused =>
    ⟨refused, step_of_refused fun ⟨_, ran⟩ =>
      have ⟨result, ran, _⟩ := except_map_eq_ok.mp ran
      refused ⟨result, ran⟩⟩
  refine ⟨coherent.requests, fun turn mem world now diverged => ?_,
    fun id action identified saved goes more may world now diverged update same => ?_,
    fun turn mem request ids attempt same identified => ?_⟩
  · have again : round.submitted world now diverged turn.update = .ok (false, round) :=
      submitted_again coherent mem
    exact ⟨again, step_of_run_self (except_map_eq_ok.mpr ⟨_, again, rfl⟩),
      fun update same differs => refuses (submitted_other coherent mem same differs)⟩
  · have gone := letGo_of_letsGo coherent unsaved identified.1 saved goes
    exact refuses (submitted_of_letGo (same ▸ foldl_letGo gone may))
  · have refused := post_answered coherent mem same identified
    refine ⟨refused, step_of_refused fun ⟨_, ran⟩ => ?_, fun outstanding held again => ?_⟩
    · obtain ⟨result, ran, _⟩ := except_map_eq_ok.mp ran
      exact refused ⟨result, ran⟩
    · exact unsaved.pending outstanding (coherent.retry_of_outstanding held) turn mem
        (same.symm.trans again.symm)

end ExploreRound

namespace Sample

open ExploreRound (step Identified)

theorem reaches_replied : Reaches step Identified opened (waiting.step reply) := by
  have may : AllAllowed step Identified opened
      [post (request "kickoff" none []), submit (first "why" [topic]), reply] := by decide
  exact Reaches.start.foldl may

theorem replied_accepted_once :
    ((waiting.step reply).exploration.conversation.map (·.update.request)).Nodup ∧
      ¬∃ result, ((waiting.step reply).step .cancel).submitted world 0 []
        (asking "reply" "how" []) = .ok result := by
  obtain ⟨nodup, _, gone, _⟩ := ExploreRound.accepted_once isNew_opened reaches_replied
  refine ⟨nodup, (gone "reply" .cancel ⟨trivial, trivial⟩ (by decide) ?_ [] trivial world 0 []
    (asking "reply" "how" []) rfl).1⟩
  exact ⟨request "reply" (some (answer "first" (some (question "why")) "kickoff")) [],
    by decide, rfl⟩

end Sample

end ProgressiveReviewer.Explore
