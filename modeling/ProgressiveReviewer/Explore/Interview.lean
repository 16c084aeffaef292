import ProgressiveReviewer.Explore.Validation

/-! The interview of a round: requests, accepted turns, revised questions and cancelled
answers (`review-explore/src/interview.rs`, `revision.rs`, `cancel.rs`). Identities and
times that the source makes up are arguments here. -/

namespace ProgressiveReviewer.Explore

open Library Hunks Marks

/-- The identities that a new request is given. -/
structure FreshIds where
  request : String
  answer : String
  deriving DecidableEq, Repr

/-- Reviewed lines a turn reopened, and who had marked them. -/
structure ReopenedLines where
  location : CodeLocation
  author : MarkAuthor
  deriving DecidableEq, Repr

/-- The review marks one agent turn changed. -/
structure TurnMarks where
  /-- The answer that applied the marks. -/
  answer : Option String
  reviewed : List CodeLocation
  notRelevant : List NotRelevantMark
  reopened : List ReopenedLines
  problem : Option String
  deriving DecidableEq, Repr

/-- An answer the reviewer took back, and the agent turn it discarded. -/
structure CancelledAnswer where
  answer : ReviewerAnswer
  /-- The request that carried the answer to the agent. -/
  request : Option String
  marks : List TurnMarks
  deriving DecidableEq, Repr

namespace Decided

variable (decided : Decided)

/-- A topic the agent sends keeps its recorded status. -/
def takeTopic (topic : Topic) : Decided :=
  { decided with
    topics := decided.topics.insert topic.id
      (topic.withStatus (((decided.topics.lookup topic.id).map (·.status)).getD .«open»)) }

def settle (interpretation : Interpretation) (answer : ReviewerAnswer) : Decided :=
  { decided with
    topics := match answer.question with
      | some question =>
        decided.topics.modify question.topic (·.withStatus interpretation.status)
      | none => decided.topics
    interpretations := decided.interpretations ++ [interpretation] }

def recordReport (limitations findings : List String) (concluded : Bool) : Decided :=
  { decided with
    limitations := if !concluded || limitations ≠ [] then limitations else decided.limitations
    findings := findings.foldl
      (fun kept finding => if finding ∈ kept then kept else kept ++ [finding]) decided.findings }

/-- What a turn that follows `answer` decides besides its glossary and topics. -/
def interpret (interpretation : Option Interpretation) (answer : Option ReviewerAnswer) :
    Decided :=
  match interpretation, answer with
  | some interpretation, some answer => decided.settle interpretation answer
  | _, _ => decided

def ask (next : Option Question) : Decided :=
  { decided with questions := decided.questions ++ next.toList }

def conclude (conclusion : Option Conclusion) : Decided := { decided with conclusion := conclusion }

def define (glossary : SortedMap String String) : Decided :=
  { decided with glossary := decided.glossary.extend glossary }

/-- Take an accepted agent turn, following `answer`, into the interview's topics,
questions, decisions and report. -/
def absorb (update : InterviewUpdate) (answer : Option ReviewerAnswer) : Decided :=
  ((((update.topics.foldl takeTopic (decided.define update.glossary)).interpret
    update.interpretation answer).ask update.next).recordReport update.limitations
      update.findings update.conclusion.isSome).conclude update.conclusion

end Decided

namespace Exploration

variable (exploration : Exploration)

def absorb (update : InterviewUpdate) (answer : Option ReviewerAnswer) : Exploration :=
  { exploration with toDecided := exploration.toDecided.absorb update answer }

/-- The turn a contribution replies to. -/
def context (input : AnswerInput) (question : Option Question) : Option ConversationTurn :=
  exploration.conversation.reverse.find? fun turn =>
    match question with
    | some question => turn.update.next = some question
    | none =>
      turn.update.conclusion.isSome && input.inReplyTo.all (· = turn.update.request)

/-- Whether a reply stays at the drawing board, as the conclusion it replies to. -/
def repliesAtDrawingBoard (question : Option Question) (context : ConversationTurn) : Bool :=
  question.isNone && context.answer.any fun id =>
    exploration.answers.any fun earlier => earlier.id = id && earlier.drawingBoard

def chosen (input : AnswerInput) (question : Option Question) :
    Except String (Option Alternative) :=
  match input.option, question with
  | none, _ => .ok none
  | some _, none => .error "No question is selected"
  | some id, some question =>
    match question.choice id with
    | some choice => .ok (some choice)
    | none => .error "Unknown option"

def validateContribution (input : AnswerInput) (question : Option Question) :
    Except String Unit :=
  if input.drawingBoard then
    ensure (question.isSome && input.option.isNone)
      "Back to the drawing board takes the place of an answer to the question, with no choice"
  else
    ensure (input.option.isSome || !isBlank input.text) "Write an answer or choose an option"

def record (input : AnswerInput) (question : Option Question) (id : String) :
    Except String (ReviewerAnswer × Exploration) := do
  match exploration.context input question with
  | none => .error "Unknown question or conversation context"
  | some context =>
    ensure (question.isSome || input.option.isNone) "A conversation reply has no policy choices"
    validateContribution input question
    let option ← chosen input question
    ensure (input.option.isNone || question.any exploration.canChoose)
      "This choice is no longer pending; reply in free text"
    ensure (input.firstPick.all fun pick => question.any fun question =>
        (question.choice pick).isSome)
      "The first pick is not a choice of this question"
    let answer : ReviewerAnswer :=
      { id := id
        checkpoint := exploration.comparison.checkpoint
        question := question
        inReplyTo := context.update.request
        option := option
        text := input.text
        author := "reviewer"
        firstPick := input.firstPick
        drawingBoard := input.drawingBoard || exploration.repliesAtDrawingBoard question context }
    return (answer, { exploration with answers := exploration.answers ++ [answer] })

def recorded (input : Option AnswerInput) (question : Option Question) (id : String) :
    Except String (Option ReviewerAnswer × Exploration) :=
  match input with
  | none => .ok (none, exploration)
  | some input => (exploration.record input question id).map fun (answer, kept) =>
    (some answer, kept)

def request (input : Option AnswerInput) (question : Option Question) (fresh : FreshIds) :
    Except String (TurnRequest × Exploration) := do
  ensure exploration.outstanding.isNone "An interview request is already pending"
  let (answer, kept) ← exploration.recorded input question fresh.answer
  -- A superseded request may not have told the agent about its cancelled answers.
  let cancelled := ((kept.retry.map (·.cancelled)).getD []) ++ kept.cancelled
  let request : TurnRequest :=
    { instanceId := kept.instanceId
      request := fresh.request
      checkpoint := kept.comparison.checkpoint
      answer := answer
      cancelled := cancelled
      responseError := none
      challenger := kept.challenger
      author := kept.author
      reviewer := kept.reviewer
      writing := kept.writing }
  return (request, { kept with
    cancelled := []
    outstanding := some request
    retry := some request })

def cancel : Exploration := { exploration with outstanding := none }

def failed (request error : String) : Bool × Exploration :=
  if exploration.outstanding.all (·.request ≠ request) then (false, exploration)
  else (true, { exploration with
    outstanding := none
    retry := exploration.retry.map fun retry => { retry with responseError := some error } })

def retryRequest : Except String (TurnRequest × Exploration) := do
  ensure exploration.outstanding.isNone "An interview request is already pending"
  match exploration.retry with
  | none => .error "No request to retry"
  | some request =>
    .ok (request, { exploration with retry := some request, outstanding := some request })

def apply (world : World) (update : InterviewUpdate) : Except String (Bool × Exploration) :=
  match exploration.outstanding with
  | none => .ok (false, exploration)
  | some request => do
    if request.instanceId ≠ update.instanceId ∨ request.request ≠ update.request then
      return (false, exploration)
    else
      exploration.validate world update
      let turn : ConversationTurn := ⟨request.answer.map (·.id), update, none⟩
      let kept := { exploration with conversation := exploration.conversation ++ [turn] }
      return (true, { kept.absorb update request.answer with outstanding := none, retry := none })

/-- Retries acknowledge an identical accepted turn without replaying it. -/
def submit (world : World) (update : InterviewUpdate) : Except String (Bool × Exploration) := do
  ensure (update.instanceId = exploration.instanceId) "This Explore round is no longer active"
  match exploration.conversation.find? fun turn => turn.update.request = update.request with
  | some previous =>
    ensure (previous.update = update)
      "An accepted turn cannot be replaced; retry the identical payload"
    return (false, exploration)
  | none =>
    ensure (exploration.outstanding.any (·.request = update.request))
      "This Explore request is cancelled or obsolete"
    exploration.apply world update

/-- The turn that replaces the open question by a new version of it. -/
def revisedUpdate (previous : InterviewUpdate) (revision : QuestionRevision) (fresh : String) :
    InterviewUpdate :=
  { previous with
    request := fresh
    interpretation := none
    challengerProposals := []
    design := none
    agenda := []
    topics := []
    next := some revision.question
    glossary := revision.glossary }

/-- Replace the open question with a new version of it; whether the revision was new
rather than a retry. The marks of the turn it follows wait for the reviewer's answer, as
they did there, so they are not checked again. -/
def revise (world : World) (revision : QuestionRevision) (fresh : String) :
    Except String (Bool × Exploration) := do
  ensure (revision.instanceId = exploration.instanceId) "This Explore round is no longer active"
  ensure (revision.checkpoint = exploration.comparison.checkpoint)
    "Revision checkpoint does not match"
  match exploration.conversation.find? fun turn => turn.update.next = some revision.question with
  | some previous =>
    ensure (previous.revision = some revision.revision ∧
        previous.update.glossary = revision.glossary)
      "An accepted revision cannot be replaced; retry the identical payload"
    return (false, exploration)
  | none =>
    ensure (exploration.outstanding.isNone ∧ exploration.retry.isNone)
      "The reviewer's answer is on its way: ask the new version in your next Explore turn"
    match exploration.conversation.getLast?.bind fun turn =>
        turn.update.next.map fun question => (turn, question) with
    | none => .error "The round has no open question to revise"
    | some (previous, current) =>
      let (id, version) := (current.id, current.version)
      ensure (revision.question.id = id ∧ version < revision.question.version)
        s!"Revise the open question {id}: keep its ID and give a version above {version}"
      ensure (!isBlank revision.revision.reason)
        "Say in reason what changed in the question and why"
      let update := revisedUpdate previous.update revision fresh
      exploration.validate world { update with reviewed := [], reopened := [] }
      let turn : ConversationTurn := ⟨previous.answer, update, some revision.revision⟩
      let kept := { exploration with conversation := exploration.conversation ++ [turn] }
      return (true, kept.absorb update none)

/-- Take one kept turn in again, after the answer it followed. -/
def replayTurn (answers : List ReviewerAnswer) (decided : Decided) (turn : ConversationTurn) :
    Decided :=
  decided.absorb turn.update (turn.answer.bind fun id => answers.find? fun answer => answer.id = id)

/-- Rebuild what the conversation's turns decided, after one was removed, and forget the
diagrams and quizzes of turns the round no longer holds. -/
def replay : Exploration :=
  let decided := exploration.conversation.foldl (replayTurn exploration.answers) .nothing
  { exploration with
    toDecided := decided
    diagramErrors := exploration.diagramErrors.filter fun error =>
      decided.questions.any fun question => question.isVersion error.question error.version
    quizAnswers := exploration.quizAnswers.retain fun conclusion _ =>
      exploration.conversation.any fun turn =>
        turn.update.conclusion.isSome && turn.update.request = conclusion }

/-- The request on its way, or waiting for a retry, that carries an answer. -/
def pendingWith (id : String) : Option TurnRequest :=
  (exploration.outstanding.filter (·.carries id)).or (exploration.retry.filter (·.carries id))

/-- The request of the agent's turn that took up an answer. -/
def tookUp (id : String) : Option String :=
  (exploration.conversation.find? fun turn => turn.answer = some id).map (·.update.request)

/-- The round without its latest answer, and without a request that carries it. -/
def withoutAnswer (id : String) : Exploration :=
  let kept := { exploration with answers := exploration.answers.dropLast }
  if (exploration.pendingWith id).isSome then { kept with outstanding := none, retry := none }
  else kept

/-- The round without the turns that follow an answer. -/
def withoutTurns (id : String) : Exploration :=
  { exploration with
    conversation := exploration.conversation.filter fun turn => turn.answer ≠ some id }.replay

/-- Forget the latest answer and the agent's turn after it, and tell the agent with its
next request. -/
def cancelAnswer (id : String) : Except String (CancelledAnswer × Exploration) :=
  match exploration.answers.getLast?.filter fun answer => answer.id = id with
  | none => .error "Only the latest answer can be cancelled"
  | some answer =>
    let pending := exploration.pendingWith id
    let answered := exploration.tookUp id
    let kept := exploration.withoutAnswer id
    let kept := if answered.isSome then kept.withoutTurns id else kept
    .ok (⟨answer, answered.or (pending.map (·.request)), []⟩,
      { kept with
        -- Answers cancelled earlier that only the pending request would have told.
        cancelled := ((pending.map (·.cancelled)).getD []) ++ kept.cancelled ++ [id] })

end Exploration

end ProgressiveReviewer.Explore
