import ProgressiveReviewer.Explore.Round
import ProgressiveReviewer.Library.Runs

/-! What a saved round must satisfy to load again (`review-explore/src/recovery.rs`), and
the runs of operations on a saved round. -/

namespace ProgressiveReviewer.Explore

open Library Hunks Marks

namespace Exploration

variable (exploration : Exploration)

def validateTurns (requests : List String) : List ConversationTurn → Except String Unit
  | [] => .ok ()
  | turn :: turns => do
    ensure (turn.update.instanceId = exploration.instanceId ∧
        turn.update.checkpoint = exploration.comparison.checkpoint ∧
        turn.update.request ∉ requests)
      "invalid saved turn identity"
    ensure (turn.answer.all fun id => exploration.answers.any (·.id = id))
      "saved turn lost its original answer"
    validateTurns (turn.update.request :: requests) turns

def knownAnswer (id : String) : Bool := exploration.answers.any (·.id = id)

def validateSavedAgenda : Except String Unit := do
  ensure (exploration.topics.entries.all fun entry => entry.1 = entry.2.id)
    "invalid saved topic identity"
  (exploration.topics.values ++ exploration.conversation.flatMap (·.update.topics)).forM
    fun topic => ensure (exploration.topics.contains topic.id ∧
        topic.prerequisites.all exploration.topics.contains)
      "saved agenda lost a topic or prerequisite"
  ensure (exploration.questions.all fun question => exploration.topics.contains question.topic)
    "saved question lost its topic"
  (exploration.conversation.flatMap (·.update.agenda)).forM fun change => do
    ensure (exploration.topics.contains change.topic ∧
        change.replacement.all exploration.topics.contains)
      "saved agenda lost its topic or replacement"
    ensure (change.answer.all exploration.knownAnswer ∧
        change.decision.all exploration.knownAnswer)
      "saved agenda lost its attribution"

def validateSavedAnswer (answer : ReviewerAnswer) : Except String Unit := do
  let context := exploration.conversation.find? fun turn => turn.update.request = answer.inReplyTo
  ensure (context.any fun turn => match answer.question with
      | some question => turn.update.next = some question
      | none => turn.update.conclusion.isSome)
    "saved answer lost its original context"
  ensure (answer.option.all fun option => answer.question.any fun question =>
      question.choices.contains option)
    "saved answer lost its exact option"

def validateAnswers (seen : List String) : List ReviewerAnswer → Except String Unit
  | [] => .ok ()
  | answer :: answers => do
    ensure (answer.checkpoint = exploration.comparison.checkpoint ∧ answer.id ∉ seen)
      "invalid saved answer identity"
    ensure (answer.question.all exploration.questions.contains)
      "saved answer lost its question version"
    exploration.validateSavedAnswer answer
    validateAnswers (answer.id :: seen) answers

/-- Validate stored structure without reopening or checking the freshness of sources. -/
def validateRestored : Except String Unit := do
  ensure (exploration.instanceId ≠ "") "missing round identity"
  exploration.validateTurns [] exploration.conversation
  ensure (exploration.conversation.filterMap (·.update.next) = exploration.questions)
    "saved question history is inconsistent"
  exploration.validateSavedAgenda
  exploration.validateAnswers [] exploration.answers
  ensure (exploration.interpretations.all fun item => exploration.knownAnswer item.answer)
    "saved interpretation lost its answer"
  (exploration.outstanding.toList ++ exploration.retry.toList).forM fun request =>
    ensure (request.instanceId = exploration.instanceId ∧
        request.checkpoint = exploration.comparison.checkpoint ∧
        request.answer.all exploration.answers.contains)
      "invalid saved pending turn"
  ensure exploration.comparison.Mapped "invalid saved comparison mapping"

/-- The agent's turn whose question the round waits for an answer to. -/
def waitingTurn : Option InterviewUpdate :=
  if exploration.outstanding.isSome || exploration.retry.isSome then none
  else (exploration.conversation.getLast?.map (·.update)).filter (·.next.isSome)

/-- Whether a turn of the conversation posted a conclusion under this request. -/
def concluded (request : String) : Bool :=
  exploration.conversation.any fun turn =>
    turn.update.request = request && turn.update.conclusion.isSome

end Exploration

namespace ExploreRound

variable (round : ExploreRound)

def validateDelivery (id : String) (record : InterviewDelivery) : Except String Unit := do
  ensure (id = record.request.request ∧
      record.request.instanceId = round.exploration.instanceId ∧
      record.request.checkpoint = round.exploration.comparison.checkpoint ∧ record.attempt ≠ "")
    "invalid saved delivery identity"
  ensure (record.request.answer.all round.exploration.answers.contains)
    "saved delivery lost its exact answer"

def validateSavedImplementation (id : String) (record : ImplementationDelivery) :
    Except String Unit := do
  ensure (id = record.request.delivery ∧
      record.request.instanceId = round.exploration.instanceId ∧ record.attempt ≠ "")
    "invalid saved implementation identity"
  ensure (round.exploration.concluded record.request.conclusion)
    "saved implementation lost its conclusion"

def validateRestored : Except String Unit := do
  round.exploration.validateRestored
  ensure (round.completion.all fun completion => round.exploration.concluded completion.request &&
      round.exploration.comparison.checkpoint.checkpoint = completion.baseline)
    "saved completion lost its conclusion or baseline"
  round.turns.entries.forM fun entry => round.validateDelivery entry.1 entry.2
  round.implementations.entries.forM fun entry =>
    round.validateSavedImplementation entry.1 entry.2

end ExploreRound

/-- What the session does with a saved round. -/
inductive Action where
  | post (request : TurnRequest) (fresh : FreshIds) (attempt : String)
  | submit (world : World) (now : Nat) (diverged : List String) (update : InterviewUpdate)
  | revise (world : World) (revision : QuestionRevision) (fresh : String)
  | cancelAnswersFrom (id : String)
  | failed (request error : String)
  | retry
  | cancel
  | authorize (request : ImplementationRequest) (attempt : String)
  | beginDispatch (id : DispatchId) (agent : Agent) (now : Nat)
  | finishDispatch (result : DispatchResult) (now : Nat)
  /-- The agent a prompt went to. -/
  | pin (session : Option ConversationBinding)
  /-- The marks a turn changed. -/
  | mark (request : String) (marks : TurnMarks)

namespace ExploreRound

variable (round : ExploreRound)

/-- The round with a changed interview. -/
def withExploration (exploration : Exploration) : ExploreRound :=
  { round with exploration := exploration }

/-- One operation; a refused one changes nothing. -/
def run : Action → Except String ExploreRound
  | .post request fresh attempt => (round.post request fresh attempt).map Prod.snd
  | .submit world now diverged update => (round.submitted world now diverged update).map Prod.snd
  | .revise world revision fresh =>
    (round.exploration.revise world revision fresh).map fun result =>
      round.withExploration result.2
  | .cancelAnswersFrom id => (round.cancelAnswersFrom id).map Prod.snd
  | .failed request error => .ok (round.withExploration (round.exploration.failed request error).2)
  | .retry => round.exploration.retryRequest.map fun result => round.withExploration result.2
  | .cancel => .ok (round.withExploration round.exploration.cancel)
  | .authorize request attempt => (round.authorize request attempt).map Prod.snd
  | .beginDispatch id agent now => round.beginDispatch id agent now
  | .finishDispatch result now => .ok (round.finishDispatch result now)
  | .pin session => .ok { round with lastAgentSession := session }
  | .mark request marks => .ok { round with marks := round.marks.insert request marks }

/-- The saved round after one operation. -/
def step (action : Action) : ExploreRound :=
  match updateRound (fun saved => saved.run action) round with
  | .ok changed => changed
  | .error _ => round

theorem step_eq (action : Action) :
    round.step action = round ∨ ∃ changed revision, round.run action = .ok changed ∧
      round.step action = { changed with revision := revision } := by
  unfold step
  cases change : updateRound (fun saved => saved.run action) round with
  | error failure => exact .inl rfl
  | ok saved =>
    obtain ⟨changed, ran, same⟩ := except_bind_eq_ok.mp change
    split_ifs at same with unchanged
    · exact .inl (Except.ok.inj same).symm
    · obtain ⟨_, next⟩ := ensure_bind_eq_ok.mp same
      exact .inr ⟨changed, _, ran, (Except.ok.inj next).symm⟩

end ExploreRound

end ProgressiveReviewer.Explore
