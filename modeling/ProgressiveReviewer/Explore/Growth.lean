import ProgressiveReviewer.Explore.Turns

/-! How the answers and the turns of a dialogue grow: a turn follows the latest answer, so
taking an answer back takes the dialogue back to an earlier one. The turn of a request
without an answer follows none, and stays when the answers before it are taken back. -/

namespace ProgressiveReviewer.Explore

open Library

/-- The checks that a turn passed in a round with these answers and turns. -/
def Passed (comparison : Comparison) (answers : List ReviewerAnswer)
    (conversation : List ConversationTurn) (answer : Option ReviewerAnswer)
    (update : InterviewUpdate) : Prop :=
  ∃ (exploration : Exploration) (world : World), exploration.comparison = comparison ∧
    exploration.answers = answers ∧ exploration.conversation = conversation ∧
    exploration.toDecided = Dialogue.replayed answers conversation ∧
    exploration.outstandingAnswer = answer ∧ exploration.validate world update = .ok ()

/-- What an answer was posted with. -/
structure Posted (comparison : Comparison) (answers : List ReviewerAnswer)
    (conversation : List ConversationTurn) (answer : ReviewerAnswer) : Prop where
  fresh : ∀ old ∈ answers, old.id ≠ answer.id
  checkpoint : answer.checkpoint = comparison.checkpoint
  context : ∃ turn ∈ conversation, Dialogue.Answers answer turn
  option : ∀ option, answer.option = some option →
    ∃ question, answer.question = some question ∧ option ∈ question.choices

/-- A new version of the question of the latest turn. -/
structure Revised (comparison : Comparison) (answers : List ReviewerAnswer)
    (conversation : List ConversationTurn) (turn : ConversationTurn) : Prop where
  follows : ∃ previous, conversation.getLast? = some previous ∧ turn.answer = previous.answer
  checkpoint : turn.update.checkpoint = comparison.checkpoint
  interpretation : turn.update.interpretation = none
  topics : turn.update.topics = []
  agenda : turn.update.agenda = []
  next : ∀ question, turn.update.next = some question →
    (Dialogue.replayed answers conversation).topics.contains question.topic = true

/-- Answers and turns as they come. The answers below the floor are those given before the
latest turn that follows none. -/
inductive Grown (comparison : Comparison) : List ReviewerAnswer → List ConversationTurn → Nat → Prop
  | start : Grown comparison [] [] 0
  | answer {answers : List ReviewerAnswer} {conversation : List ConversationTurn} {floor : Nat}
      {answer : ReviewerAnswer} : Grown comparison answers conversation floor →
      Posted comparison answers conversation answer →
      Grown comparison (answers ++ [answer]) conversation floor
  | take {answers : List ReviewerAnswer} {conversation : List ConversationTurn} {floor : Nat}
      {answer : ReviewerAnswer} {turn : ConversationTurn} :
      Grown comparison answers conversation floor → answers.getLast? = some answer →
      turn.answer = some answer.id →
      Passed comparison answers conversation (some answer) turn.update →
      Grown comparison answers (conversation ++ [turn]) floor
  | kickoff {answers : List ReviewerAnswer} {conversation : List ConversationTurn} {floor : Nat}
      {turn : ConversationTurn} : Grown comparison answers conversation floor →
      turn.answer = none → Passed comparison answers conversation none turn.update →
      Grown comparison answers (conversation ++ [turn]) answers.length
  | revise {answers : List ReviewerAnswer} {conversation : List ConversationTurn} {floor : Nat}
      {turn : ConversationTurn} : Grown comparison answers conversation floor →
      Revised comparison answers conversation turn →
      Grown comparison answers (conversation ++ [turn]) floor

namespace Grown

variable {comparison : Comparison} {answers : List ReviewerAnswer}
variable {conversation : List ConversationTurn} {floor : Nat}

theorem followed (grown : Grown comparison answers conversation floor) :
    ∀ turn ∈ conversation, ∀ id, turn.answer = some id → ∃ answer ∈ answers, answer.id = id := by
  induction grown with
  | start => exact fun _ mem => absurd mem List.not_mem_nil
  | answer _ _ ih =>
    intro turn mem id follows
    obtain ⟨answer, held, same⟩ := ih turn mem id follows
    exact ⟨answer, List.mem_append_left _ held, same⟩
  | take _ last follows _ ih =>
    refine List.forall_mem_append.mpr ⟨ih, List.forall_mem_singleton.mpr fun id same => ?_⟩
    exact ⟨_, List.mem_of_getLast? last, Option.some.inj (follows.symm.trans same)⟩
  | kickoff _ follows _ ih =>
    refine List.forall_mem_append.mpr ⟨ih, List.forall_mem_singleton.mpr fun id same => ?_⟩
    rw [follows] at same; cases same
  | revise _ revised ih =>
    obtain ⟨previous, last, follows⟩ := revised.follows
    refine List.forall_mem_append.mpr ⟨ih, List.forall_mem_singleton.mpr fun id same => ?_⟩
    exact ih previous (List.mem_of_getLast? last) id (follows ▸ same)

theorem unfollowed {answer : ReviewerAnswer} (grown : Grown comparison answers conversation floor)
    (fresh : ∀ old ∈ answers, old.id ≠ answer.id) :
    ∀ turn ∈ conversation, turn.answer ≠ some answer.id := fun turn mem follows => by
  obtain ⟨old, held, same⟩ := grown.followed turn mem _ follows
  exact fresh old held same

/-- Once a turn follows the latest answer, the latest turn does. -/
theorem last_follows (grown : Grown comparison answers conversation floor) {answer : ReviewerAnswer}
    (latest : answers.getLast? = some answer) (above : floor < answers.length)
    {turn last : ConversationTurn} (mem : turn ∈ conversation) (follows : turn.answer = some answer.id)
    (newest : conversation.getLast? = some last) : last.answer = some answer.id := by
  induction grown generalizing turn last with
  | start => cases mem
  | answer grown posted _ =>
    obtain rfl := by simpa using latest
    exact absurd follows (grown.unfollowed posted.fresh turn mem)
  | take _ held same _ _ =>
    obtain rfl := by simpa using newest
    exact Option.some.inj (held.symm.trans latest) ▸ same
  | kickoff _ _ _ _ => exact absurd above (Nat.lt_irrefl _)
  | revise _ revised ih =>
    obtain ⟨previous, before, same⟩ := revised.follows
    obtain rfl := by simpa using newest
    rcases List.mem_append.mp mem with mem | mem
    · exact same.trans (ih latest above mem follows before)
    · exact List.mem_singleton.mp mem ▸ follows

/-- No turn follows the latest answer when the latest turn does not. -/
theorem untouched (grown : Grown comparison answers conversation floor) {answer : ReviewerAnswer}
    (latest : answers.getLast? = some answer) (above : floor < answers.length)
    {last : ConversationTurn} (newest : conversation.getLast? = some last)
    (other : last.answer ≠ some answer.id) :
    (conversation.filter fun turn => turn.answer ≠ some answer.id) = conversation :=
  List.filter_eq_self.mpr fun _ mem => decide_eq_true fun followed =>
    other (grown.last_follows latest above mem followed newest)

/-- Taking the latest answer back takes its turns from the end. -/
theorem withdraw (grown : Grown comparison answers conversation floor) {answer : ReviewerAnswer}
    (latest : answers.getLast? = some answer) (above : floor < answers.length) :
    Grown comparison answers.dropLast
      (conversation.filter fun turn => turn.answer ≠ some answer.id) floor := by
  induction grown with
  | start => cases latest
  | answer grown posted _ =>
    obtain rfl := by simpa using latest
    rw [List.dropLast_concat,
      List.filter_eq_self.mpr fun turn mem => decide_eq_true (grown.unfollowed posted.fresh turn mem)]
    exact grown
  | take _ held follows _ ih =>
    obtain rfl := Option.some.inj (held.symm.trans latest)
    simpa [List.filter_append, follows] using ih latest above
  | kickoff _ _ _ _ => exact absurd above (Nat.lt_irrefl _)
  | @revise answers conversation floor turn grown revised ih =>
    obtain ⟨previous, before, same⟩ := revised.follows
    by_cases follows : turn.answer = some answer.id
    · simpa [List.filter_append, follows] using ih latest above
    · have untouched := grown.untouched latest above before (same ▸ follows)
      have ih := ih latest above
      rw [untouched] at ih
      have last : ([turn].filter fun turn => turn.answer ≠ some answer.id) = [turn] := by simp [follows]
      rw [List.filter_append, untouched, last]
      exact .revise ih { revised with next := fun question asked =>
        Dialogue.contains_replayed.mpr (Dialogue.contains_replayed.mp (revised.next question asked)) }

theorem withdraw_prefix (grown : Grown comparison answers conversation floor) {answer : ReviewerAnswer}
    (latest : answers.getLast? = some answer) (above : floor < answers.length) :
    (conversation.filter fun turn => turn.answer ≠ some answer.id) <+: conversation := by
  induction grown with
  | start => cases latest
  | answer grown posted _ =>
    obtain rfl := by simpa using latest
    rw [List.filter_eq_self.mpr fun turn mem => decide_eq_true (grown.unfollowed posted.fresh turn mem)]
  | @take answers conversation floor _ turn _ held follows _ ih =>
    obtain rfl := Option.some.inj (held.symm.trans latest)
    rw [List.filter_append, List.filter_cons_of_neg (by simp [follows]), List.filter_nil,
      List.append_nil]
    exact (ih latest above).trans (List.prefix_append _ _)
  | kickoff _ _ _ _ => exact absurd above (Nat.lt_irrefl _)
  | @revise answers conversation floor turn grown revised ih =>
    obtain ⟨previous, before, same⟩ := revised.follows
    by_cases follows : turn.answer = some answer.id
    · rw [List.filter_append, List.filter_cons_of_neg (by simp [follows]), List.filter_nil,
        List.append_nil]
      exact (ih latest above).trans (List.prefix_append _ _)
    · rw [List.filter_append, grown.untouched latest above before (same ▸ follows),
        List.filter_cons_of_pos (by simp [follows]), List.filter_nil]

end Grown

namespace Dialogue

/-- The dialogue grew, and the request that waits carries the latest answer. -/
structure Growing (d : Dialogue) (floor : Nat) : Prop where
  grown : Grown d.comparison d.answers d.conversation floor
  latest : ∀ request, d.retry = some request → ∀ answer, request.answer = some answer →
    d.answers.getLast? = some answer

namespace Growing

variable {d after : Dialogue} {floor : Nat}

theorem ask (growing : d.Growing floor) {attempt : String} {request : TurnRequest}
    (admits : ∀ answer, request.answer = some answer → d.Admits answer) :
    (d.ask attempt request).Growing floor where
  grown := by
    cases given : request.answer with
    | none => simpa [Dialogue.ask, given] using growing.grown
    | some answer =>
      have admits := admits answer given
      simpa [Dialogue.ask, given] using
        growing.grown.answer ⟨admits.fresh, admits.checkpoint, admits.context, admits.option⟩
  latest := by
    rintro _ ⟨⟩ answer given
    simp [Dialogue.ask, given]

theorem take (growing : d.Growing floor) {request : TurnRequest} {update : InterviewUpdate}
    (retry : d.retry = some request)
    (passed : Passed d.comparison d.answers d.conversation request.answer update) :
    (d.accept request update).Growing (if request.isKickoff then d.answers.length else floor) where
  grown := by
    cases given : request.answer with
    | none =>
      rw [given] at passed
      have grown : Grown d.comparison d.answers (d.conversation ++ [⟨none, update, none⟩])
          d.answers.length := growing.grown.kickoff rfl passed
      simpa [TurnRequest.isKickoff, Dialogue.accept, given] using grown
    | some answer =>
      rw [given] at passed
      have grown : Grown d.comparison d.answers
          (d.conversation ++ [⟨some answer.id, update, none⟩]) floor :=
        growing.grown.take (growing.latest request retry answer given) rfl passed
      simpa [TurnRequest.isKickoff, Dialogue.accept, given] using grown
  latest := fun _ absent => nomatch absent

theorem withdraw (growing : d.Growing floor) {answer : ReviewerAnswer}
    (last : d.answers.getLast? = some answer) (above : floor < d.answers.length) :
    (d.withdraw answer.id).Growing floor where
  grown := growing.grown.withdraw last above
  latest := fun request retry other given => by
    dsimp only [Dialogue.withdraw] at retry
    split_ifs at retry with pending
    have held := growing.latest request retry other given
    obtain rfl := Option.some.inj (held.symm.trans last)
    have carries : request.carries other.id = true := by simp [TurnRequest.carries, given]
    exact absurd (by simp [pendingWith, retry, carries]) pending

/-- The moves that neither add a turn nor take an answer back. -/
theorem move (growing : d.Growing floor) (coherent : d.Coherent) {event : Event}
    (moved : Move d event after) (other : ¬event.IsTurn) (keeps : ∀ answer, event ≠ .withdrew answer) :
    after.Growing floor := by
  cases moved with
  | ask _ _ _ _ _ admits => exact growing.ask admits
  | @resend _ request current previous sent retry same _ _ content _ =>
    obtain ⟨entry, held, carried⟩ := coherent.retried current retry
    rw [same, sent] at held
    obtain rfl := Option.some.inj held
    have again : request.answer = current.answer := content.symm.trans carried
    refine ⟨growing.grown, ?_⟩
    rintro _ ⟨⟩ answer given
    exact growing.latest current retry answer (again ▸ given)
  | accept | revise => exact absurd trivial other
  | drop => exact { growing with }
  | fail =>
    refine ⟨growing.grown, fun request retry answer given => ?_⟩
    obtain ⟨previous, held, rfl⟩ := Option.map_eq_some_iff.mp retry
    exact growing.latest previous held answer given
  | retry _ => exact { growing with }
  | withdraw _ _ => exact absurd rfl (keeps _)
  | implement _ _ _ => exact { growing with }

theorem path (growing : d.Growing floor) (coherent : d.Coherent) {events : List Event}
    (path : Path Move d events after) (other : ∀ event ∈ events, ¬event.IsTurn)
    (keeps : ∀ event ∈ events, ∀ answer, event ≠ .withdrew answer) : after.Growing floor := by
  induction path with
  | nil => exact growing
  | cons moved _ ih =>
    exact ih (growing.move coherent moved (other _ List.mem_cons_self) (keeps _ List.mem_cons_self))
      (coherent.move moved) (fun event mem => other event (List.mem_cons_of_mem _ mem))
      fun event mem => keeps event (List.mem_cons_of_mem _ mem)

theorem revise (growing : d.Growing floor) {turn previous : ConversationTurn}
    (rested : d.retry = none) (last : d.conversation.getLast? = some previous)
    (follows : turn.answer = previous.answer) (uninterpreted : turn.update.interpretation = none)
    (topics : turn.update.topics = []) (agenda : turn.update.agenda = [])
    (decided : d.decided = replayed d.answers d.conversation)
    (checked : d.Checked none turn.update) : (d.revise turn).Growing floor where
  grown := growing.grown.revise {
    follows := ⟨previous, last, follows⟩
    checkpoint := checked.checkpoint
    interpretation := uninterpreted
    topics := topics
    agenda := agenda
    next := fun question asked => by
      rcases checked.next question asked with known | ⟨topic, mem, _⟩
      · exact decided ▸ known
      · rw [topics] at mem; cases mem }
  latest := fun request retry => by
    have none : d.retry = some request := retry
    rw [rested] at none; cases none

end Growing

/-- A move that adds no turn leaves no more of them. -/
theorem conversation_shorter {d after : Dialogue} {events : List Event}
    (path : Path Move d events after) (other : ∀ event ∈ events, ¬event.IsTurn) :
    after.conversation.length ≤ d.conversation.length := by
  induction path with
  | nil => exact Nat.le_refl _
  | cons moved _ ih =>
    refine Nat.le_trans (ih fun event mem => other event (List.mem_cons_of_mem _ mem)) ?_
    have quiet := other _ List.mem_cons_self
    cases moved with
    | accept | revise => exact absurd trivial quiet
    | withdraw => exact List.length_filter_le _ _
    | _ => exact Nat.le_refl _

end Dialogue

theorem Action.Brings.keepsAnswers {action : Action} {events : List Event}
    (brings : action.Brings events) (other : ∀ id, action ≠ .cancelAnswersFrom id) :
    ∀ event ∈ events, ∀ answer, event ≠ .withdrew answer := by
  cases brings with
  | nothing => exact fun _ mem => absurd mem List.not_mem_nil
  | @move action event makes =>
    rintro _ (_ | ⟨_, ⟨⟩⟩) answer rfl
    cases action with
    | cancelAnswersFrom id => exact other id rfl
    | _ => exact makes.elim
  | back answers => exact absurd rfl (other _)

theorem Move.withdrew {d after : Dialogue} {id : String} (moved : Move d (.withdrew id) after) :
    after = d.withdraw id := by
  cases moved
  rfl

theorem Move.took {d after : Dialogue} {request : TurnRequest} {update : InterviewUpdate}
    (moved : Move d (.took request update) after) : after = d.accept request update := by
  cases moved
  rfl

theorem Move.revised {d after : Dialogue} {turn : ConversationTurn}
    (moved : Move d (.revised turn) after) : d.outstanding = none := by
  cases moved
  assumption

namespace ExploreRound

open Dialogue

variable {start round changed : ExploreRound} {floor : Nat}

/-- A turn that a round accepts passed its checks. -/
theorem passed_of_validate {world : World} {update : InterviewUpdate}
    (coherent : round.dialogue.Coherent)
    (valid : round.exploration.validate world update = .ok ()) :
    Passed round.dialogue.comparison round.dialogue.answers round.dialogue.conversation
      round.exploration.outstandingAnswer update :=
  ⟨round.exploration, world, rfl, rfl, rfl, coherent.decided, rfl, valid⟩

/-- The answers past the floor go until the one asked for, with the latest turns. -/
theorem cancelUntil_growing {id : String} {fuel : Nat} {cancelled : List CancelledAnswer}
    (growing : round.dialogue.Growing floor)
    (later : ∃ answer ∈ round.exploration.answers.drop floor, answer.id = id)
    (ran : cancelUntil id fuel round = .ok (cancelled, changed)) :
    changed.dialogue.Growing floor ∧ changed.exploration.answers <+: round.exploration.answers ∧
      changed.exploration.conversation <+: round.exploration.conversation := by
  induction fuel generalizing round cancelled with
  | zero =>
    cases ran
    exact ⟨growing, List.prefix_rfl, List.prefix_rfl⟩
  | succ fuel ih =>
    unfold cancelUntil at ran
    split at ran
    · cases ran
      exact ⟨growing, List.prefix_rfl, List.prefix_rfl⟩
    · next latest last =>
      obtain ⟨⟨first, kept⟩, took, ran⟩ := except_bind_eq_ok.mp ran
      obtain ⟨answer, mem, same⟩ := later
      have above : floor < round.exploration.answers.length := by
        have := List.length_pos_of_mem mem
        rw [List.length_drop] at this
        omega
      have withdrawn : kept.dialogue = round.dialogue.withdraw latest.id :=
        (cancelAnswer_eq_ok took).2.withdrew
      have growing' : kept.dialogue.Growing floor := withdrawn ▸ growing.withdraw last above
      have answers : kept.exploration.answers = round.exploration.answers.dropLast :=
        congrArg Dialogue.answers withdrawn
      have fewer : kept.exploration.answers <+: round.exploration.answers :=
        answers ▸ List.dropLast_prefix _
      have shorter : kept.exploration.conversation <+: round.exploration.conversation := by
        rw [show kept.exploration.conversation = _ from congrArg Dialogue.conversation withdrawn]
        exact growing.grown.withdraw_prefix last above
      dsimp only at ran
      split_ifs at ran with here
      · cases ran
        exact ⟨growing', fewer, shorter⟩
      · obtain ⟨⟨more, rest⟩, others, whole⟩ := except_bind_eq_ok.mp ran
        cases whole
        suffices held : answer ∈ kept.exploration.answers.drop floor by
          obtain ⟨growing, kept, turns⟩ := ih growing' ⟨answer, held, same⟩ others
          exact ⟨growing, kept.trans fewer, turns.trans shorter⟩
        have differs : answer ≠ latest := fun equal => here (equal ▸ same)
        rw [← List.dropLast_append_getLast? latest last,
          List.drop_append_of_le_length (by rw [List.length_dropLast]; omega)] at mem
        rcases List.mem_append.mp mem with mem | mem
        · exact answers ▸ mem
        · exact absurd (List.mem_singleton.mp mem) differs

theorem cancelAnswersFrom_growing {id : String} {cancelled : List CancelledAnswer}
    (growing : round.dialogue.Growing floor)
    (keeps : ∀ answer ∈ round.exploration.answers.take floor, answer.id ≠ id)
    (ran : round.cancelAnswersFrom id = .ok (cancelled, changed)) :
    changed.dialogue.Growing floor ∧ changed.exploration.answers <+: round.exploration.answers ∧
      changed.exploration.conversation <+: round.exploration.conversation := by
  obtain ⟨held, took⟩ := ensure_bind_eq_ok.mp ran
  obtain ⟨answer, mem, named⟩ := List.any_eq_true.mp held
  have named : answer.id = id := of_decide_eq_true named
  refine cancelUntil_growing growing ⟨answer, ?_, named⟩ took
  rw [← List.take_append_drop floor round.exploration.answers] at mem
  exact (List.mem_append.mp mem).resolve_left fun early => keeps answer early named

variable (round) in
/-- How many answers were given before the latest turn that follows none. -/
def heldAfter (held : Nat) (action : Action) : Nat :=
  if round.exploration.conversation.length < (round.step action).exploration.conversation.length ∧
      round.exploration.outstanding.any (·.isKickoff) = true
  then round.exploration.answers.length else held

theorem step_growing {action : Action} (coherent : round.dialogue.Coherent)
    (growing : round.dialogue.Growing floor) (fresh : round.Fresh action)
    (keeps : ∀ id, action = .cancelAnswersFrom id →
      ∀ answer ∈ round.exploration.answers.take floor, answer.id ≠ id) :
    (round.step action).dialogue.Growing (round.heldAfter floor action) := by
  have stays : (round.step action).dialogue.conversation.length ≤
      round.dialogue.conversation.length → round.heldAfter floor action = floor := fun shorter =>
    if_neg fun grows => absurd grows.1 (Nat.not_lt.mpr shorter)
  by_cases cancels : ∃ id, action = .cancelAnswersFrom id
  · obtain ⟨id, rfl⟩ := cancels
    obtain ⟨events, brings, path⟩ := step_path fresh
    rw [stays (conversation_shorter path (brings.noTurn fun no => no))]
    rcases round.step_eq (.cancelAnswersFrom id) with same | ⟨changed, revision, ran, same⟩
    · rw [same]
      exact growing
    · have done : (round.step (.cancelAnswersFrom id)).dialogue = changed.dialogue := by rw [same]; rfl
      obtain ⟨⟨cancelled, _⟩, took, rfl⟩ := except_map_eq_ok.mp ran
      exact done ▸ (cancelAnswersFrom_growing growing (keeps id rfl) took).1
  · rcases step_turns fresh with ⟨events, brings, other, path⟩ |
      ⟨world, request, update, outstanding, valid, moved⟩ | ⟨world, turn, valid, moved⟩
    · rw [stays (conversation_shorter path other)]
      exact growing.path coherent path other
        (brings.keepsAnswers fun id same => cancels ⟨id, same⟩)
    · have passed := passed_of_validate coherent valid
      have answer : round.exploration.outstandingAnswer = request.answer := by
        rw [Exploration.outstandingAnswer, outstanding]; rfl
      have taken := growing.take (coherent.retry_of_outstanding outstanding) (answer ▸ passed)
      have after : (round.step action).dialogue = round.dialogue.accept request update := moved.took
      have held : round.heldAfter floor action =
          if request.isKickoff then round.dialogue.answers.length else floor := by
        have grows : round.exploration.conversation.length <
            (round.step action).exploration.conversation.length := by
          have turns := congrArg (·.conversation.length) after
          simp only [Dialogue.accept, List.length_append, List.length_singleton] at turns
          exact turns ▸ Nat.lt_succ_self _
        simp [heldAfter, grows, outstanding, dialogue]
      rw [after, held]
      exact taken
    · have idle : round.exploration.outstanding = none := moved.revised
      have held : round.heldAfter floor action = floor := if_neg (by simp [idle])
      rw [held]
      generalize (round.step action).dialogue = after at moved ⊢
      cases moved with
      | revise _ rested last follows _ _ _ uninterpreted topics agenda _ checked =>
        exact growing.revise rested last follows uninterpreted topics agenda coherent.decided checked

end ExploreRound

/-- A round with how many answers were given before the latest turn that follows none. -/
structure Openings where
  round : ExploreRound
  held : Nat

namespace Openings

def new (round : ExploreRound) : Openings := ⟨round, 0⟩

def step (log : Openings) (action : Action) : Openings :=
  ⟨log.round.step action, log.round.heldAfter log.held action⟩

/-- No answer is taken back that was given before a turn that follows none. -/
def May (log : Openings) (action : Action) : Prop :=
  log.round.Fresh action ∧ match action with
    | .cancelAnswersFrom id => ∀ answer ∈ log.round.exploration.answers.take log.held, answer.id ≠ id
    | _ => True

instance (log : Openings) : ∀ action, Decidable (log.May action)
  | .cancelAnswersFrom id => inferInstanceAs (Decidable (log.round.Fresh (.cancelAnswersFrom id) ∧
      ∀ answer ∈ log.round.exploration.answers.take log.held, answer.id ≠ id))
  | .post .. | .submit .. | .revise .. | .failed .. | .retry | .cancel | .authorize .. |
    .beginDispatch .. | .finishDispatch .. | .pin _ | .mark .. =>
    inferInstanceAs (Decidable (log.round.Fresh _ ∧ True))

variable {start : ExploreRound} {log : Openings}

theorem growing_of_reaches (fresh : start.IsNew) (run : Reaches step May (new start) log) :
    log.round.dialogue.Coherent ∧ log.round.dialogue.Growing log.held := by
  induction run with
  | start =>
    refine ⟨fresh.coherent, ?_⟩
    obtain ⟨_, _, _, _, _, _, rfl⟩ := fresh
    exact ⟨.start, fun _ absent => nomatch absent⟩
  | step action _ may ih =>
    refine ⟨ExploreRound.step_coherent ih.1 may.1, ExploreRound.step_growing ih.1 ih.2 may.1 ?_⟩
    rintro id rfl
    exact may.2

end Openings

end ProgressiveReviewer.Explore
