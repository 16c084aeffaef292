import ProgressiveReviewer.Explore.Overview
import ProgressiveReviewer.Explore.Phrases
import ProgressiveReviewer.Implementation.Session
import ProgressiveReviewer.Page.Blind
import ProgressiveReviewer.RunAhead.Record
import ProgressiveReviewer.Tally.MarkTally

/-! What the page shows of a round, as the session that owns the round publishes it
(`review-explore-page/src/round.rs`, `review-turn-path/src/lib.rs`). -/

namespace ProgressiveReviewer.RunAhead

/-- Why no prepared turn was used, in plain words; nothing when the reviewer cannot use it. -/
def PlainReason.line : PlainReason → Option String
  | .noHooks => some "Not prepared: restart the agent to load the reviewer's Claude Code plugin"
  | .comment => some "Not prepared: you added a comment"
  | .noneOfTheAbove => some "Not prepared: you answered None of the above"
  | .drawingBoard => some "Not prepared: you sent the agent back to the drawing board"
  | .chatMessage => some "Not prepared: you wrote in the chat"
  | .agentBusy => some "Not prepared: the agent was working"
  | .sessionMoved => some "Not prepared: the agent's conversation moved on"
  | .unreviewedChanged => some "Not prepared: the lines left to review changed"
  | .promptChanged => some "Not prepared: the round changed after it was prepared"
  | .noForks _ => some "Not prepared: nothing was prepared for this question"
  | .notForked => some "Not prepared: only the recommended choice is prepared"
  | .stillWorking => some "Not prepared: the turn for this choice was not ready yet"
  | .noTurn => some "Not prepared: the turn for this choice did not finish"
  | .stoppedWaiting => some "Not prepared: you stopped waiting for it"
  | .switchFailed _ => some "Not prepared: the agent could not switch to the prepared turn"
  | .withdrawn => some "Not prepared: you stopped waiting while it was being used"
  | .unchecked _ | .obsolete => none

def TurnPath.line : TurnPath → Option String
  | .prepared _ => some "Prepared while you were thinking"
  | .plain reason => reason.line

end ProgressiveReviewer.RunAhead

namespace ProgressiveReviewer.Implementation

/-- Whether the reviewer may send another request in place of this one. -/
def ImplementationState.allowsAnother : ImplementationState → Bool
  | .paused | .unknown | .notSent _ | .cancelled => true
  | .sending | .sent | .notStarted => false

end ProgressiveReviewer.Implementation

namespace ProgressiveReviewer.Page

open Library Explore Hunks Marks Tallies
open Implementation (ImplementationState)
open RunAhead (TurnPath)

/-- A piece of cited code, with its color when it has one of its own. -/
structure Token where
  text : String
  color : Option (UInt8 × UInt8 × UInt8)
  deriving DecidableEq

structure HighlightedRow where
  diff : DiffRow
  tokens : List Token
  deriving DecidableEq

/-- A citation, and the lines it shows or why it shows none. -/
structure Citation where
  evidence : EvidenceRef
  lines : Except Uncitable (List HighlightedRow)
  deriving DecidableEq

/-- An abbreviated revision: the shortest beginning that names it, and the rest. -/
structure ShortRevision where
  shortest : String
  rest : String
  deriving DecidableEq, Repr

/-- The review a page belongs to. -/
structure ReviewName where
  repository : String
  revision : ShortRevision
  title : String
  deriving DecidableEq, Repr

/-- Why the reviewer cannot start a round. -/
inductive StartBlock where
  | nothingToReview
  deriving DecidableEq, Repr

def StartBlock.reason : StartBlock → String
  | .nothingToReview => "Nothing is left to review: every changed line is marked as reviewed. Unmark lines or files to start a round."

/-- The lines that an answer to a question marks, as the turn that posted the question asked. -/
structure QuestionMarks where
  reviewed : List CodeLocation
  notRelevant : List NotRelevantMark
  reopened : List CodeLocation
  deriving DecidableEq, Repr

namespace QuestionMarks

def none : QuestionMarks := ⟨[], [], []⟩

def requested (turn : InterviewUpdate) : QuestionMarks :=
  ⟨turn.reviewed, turn.notRelevant, turn.reopened⟩

def counts (marks : QuestionMarks) : MarkCounts :=
  .count marks.reviewed (NotRelevantMark.locations marks.notRelevant) marks.reopened

end QuestionMarks

/-- The agent's new version of the open question, posted from the conversation. -/
structure QuestionRevised where
  reason : String
  /-- The version the revision replaced. -/
  replaced : Nat
  deriving DecidableEq, Repr

/-- What an agent's turn said back to the reviewer's previous answer. -/
structure TurnResponse where
  interpretations : List Interpretation
  reply : Option String
  path : Option TurnPath
  revision : Option QuestionRevised
  /-- Why review marks of that answer were not applied. -/
  marksProblem : Option String
  deriving DecidableEq

namespace TurnResponse

def of (exploration : Exploration) (turn : ConversationTurn) : TurnResponse where
  interpretations := match turn.answer with
    | none => []
    | some answer => exploration.interpretations.filter fun interpretation =>
        interpretation.answer = answer
  reply := (turn.update.reply.map (·.text)).filter fun text => !isBlank text
  path := none
  revision := do
    let revision ← turn.revision
    let question ← turn.update.next
    let replaced ← (exploration.questions.takeWhile fun posted => posted ≠ question).getLast?
    return ⟨revision.reason, replaced.version⟩
  marksProblem := none

def pathLine (response : TurnResponse) : Option String := response.path.bind TurnPath.line

def isEmpty (response : TurnResponse) : Bool :=
  response.interpretations.isEmpty && response.reply.isNone && response.pathLine.isNone

end TurnResponse

/-- The question a sent answer answers. -/
structure AnsweredQuestion where
  question : Question
  citations : List Citation
  pickedBlind : Bool
  deriving DecidableEq

/-- The reviewer's answer that an agent's turn carries. -/
structure SentAnswer where
  /-- None for a reply to the conclusion. -/
  question : Option AnsweredQuestion
  kept : KeptAnswer
  marked : MarkCounts
  marksProblem : Option String
  deriving DecidableEq

/-- Why the agent is not working on the turn the round waits for. -/
inductive Interruption where
  | failed (failure : String)
  | notStarted
  | uncertain
  | stopped
  deriving DecidableEq, Repr

/-- An implementation request for a conclusion, and what became of it. -/
structure PageImplementation where
  delivery : String
  attempt : String
  text : String
  state : ImplementationState
  sentAtMs : Option Nat
  deriving DecidableEq

/-- What the page shows of a conclusion's quiz beside its items. -/
structure PageQuiz where
  proofs : List (List Citation)
  answers : QuizAnswers
  takesAnswers : Bool
  deriving DecidableEq

/-- The step of a round that the page shows. -/
inductive RoundStage where
  | noRound (start : String)
  | starting (start : String) (startedAtMs : Option Nat)
  | startFailed (failure start : String)
  | agentWorking (request : String) (sentAtMs finishingSinceMs : Option Nat)
      (answer : Option SentAnswer)
  | question (number : Nat) (question : Question) (citations : List Citation)
      (marks : QuestionMarks) (response : TurnResponse) (answerCancelled : Bool)
  | interrupted (request attempt : Option String) (interruption : Interruption)
      (answer : Option SentAnswer)
  | conclusion (request : String) (conclusion : Conclusion)
      (implementation : Option PageImplementation) (quiz : PageQuiz) (response : TurnResponse)
  | storageFailed (failure : String)
  deriving DecidableEq

namespace RoundStage

/-- The question that waits for an answer. -/
def askedQuestion : RoundStage → Option Question
  | .question _ asked .. => some asked
  | _ => none

/-- The question that waits, when it hides the recommendation until the first pick. One whose
answer was cancelled hides nothing: the reviewer has seen the recommendation. -/
def blind : RoundStage → Option BlindQuestion
  | .question _ asked _ _ _ false => BlindQuestion.of asked
  | _ => none

def response : RoundStage → Option TurnResponse
  | .question _ _ _ _ response _ | .conclusion _ _ _ _ response =>
    if response.isEmpty then none else some response
  | _ => none

/-- The reviewer's answer that the agent's turn carries. -/
def sent : RoundStage → Option SentAnswer
  | .agentWorking _ _ _ answer | .interrupted _ _ _ answer => answer
  | _ => none

/-- The start that the stage offers. -/
def offeredStart : RoundStage → Option String
  | .noRound start | .startFailed _ start => some start
  | _ => none

def isStorageFailed : RoundStage → Bool
  | .storageFailed _ => true
  | _ => false

/-- Whether the stage offers Implement for a conclusion, in place of an earlier request. -/
def offersImplement (stage : RoundStage) (conclusion : String) (replaces : Option String) : Bool :=
  match stage with
  | .conclusion request _ implementation _ _ =>
    request = conclusion && match implementation with
      | none => replaces.isNone
      | some implementation =>
        implementation.state.allowsAnother && replaces = some implementation.delivery
  | _ => false

end RoundStage

/-- What an answer answered: a question in its version, or a conclusion. -/
structure Answered where
  question : Option (String × Nat)
  option : Option String
  inReplyTo : String
  deriving DecidableEq, Repr

/-- The reviewer's latest answer, which the page offers to cancel. -/
structure LatestAnswer where
  id : String
  choice : Option String
  comment : String
  answered : Answered
  deriving DecidableEq, Repr

/-- A running round, as its owner publishes it beside its stage. -/
structure PublishedRound where
  id : String
  reviewUnit : ReviewUnit
  design : Option Design
  changedFiles : Nat
  author : ChangeAuthor
  cancellable : Option LatestAnswer
  /-- A newer round of the review was saved since. -/
  earlier : Bool
  overview : RoundOverview
  /-- The citations of each earlier question of the overview. -/
  earlierCitations : List (List Citation)

/-- A stage as a page sees it, with the round it belongs to. -/
structure RoundSnapshot where
  revision : Nat
  round : Option String
  reviewUnit : Option ReviewUnit
  design : Option Design
  changedFiles : Nat
  author : ChangeAuthor
  cancellable : Option LatestAnswer
  earlier : Bool
  /-- A past round, shown read only. -/
  past : Bool
  overview : Option RoundOverview
  earlierCitations : List (List Citation)
  stage : RoundStage
  review : Option ReviewName
  startBlock : Option StartBlock
  tally : Option MarkTally

namespace RoundSnapshot

def new (revision : Nat) (round : Option PublishedRound) (stage : RoundStage)
    (review : Option ReviewName) (startBlock : Option StartBlock) : RoundSnapshot where
  revision := revision
  round := round.map (·.id)
  reviewUnit := round.map (·.reviewUnit)
  design := round.bind (·.design)
  changedFiles := (round.map (·.changedFiles)).getD 0
  author := (round.map (·.author)).getD .reviewer
  cancellable := round.bind (·.cancellable)
  earlier := round.any (·.earlier)
  past := false
  overview := round.map (·.overview)
  earlierCitations := (round.map (·.earlierCitations)).getD []
  stage := stage
  review := review
  startBlock := startBlock
  tally := none

variable (snapshot : RoundSnapshot)

/-- The number of the question that waits: its step on the rail, as a clarified question keeps
its step's number. -/
def questionNumber : Option Nat :=
  match snapshot.stage with
  | .question number .. =>
    let step := snapshot.overview.bind fun overview =>
      overview.rail.findSome? fun step =>
        match step.step, step.state with
        | .question number, .current _ => some number
        | _, _ => none
    some (step.getD number)
  | _ => none

/-- The last done question of the rail, and the current one. -/
def questionSteps (rail : List RailStep) : Option Nat × Option Nat :=
  rail.foldl (fun (done, current) step =>
    match step.step, step.state with
    | .question number, .done => (some number, current)
    | .question number, .current _ => (done, some number)
    | _, _ => (done, current)) (none, none)

/-- The number of the question that the latest answer answered. -/
def latestAnswerNumber : Option Nat :=
  snapshot.overview.bind fun overview =>
    let (done, current) := questionSteps overview.rail
    match snapshot.stage with
    | .question .. | .conclusion .. => done
    | _ => current.or done

def answeredNumber : Option Nat :=
  (snapshot.cancellable.bind (·.answered.question)).bind fun _ => snapshot.latestAnswerNumber

/-- The number of the question answered by the answer that the agent's turn carries. -/
def sentNumber : Option Nat :=
  (snapshot.stage.sent.bind (·.question)).bind fun _ => snapshot.latestAnswerNumber

/-- The round whose conversation the page offers, with its review. -/
def conversationRound : Option (String × ReviewUnit) :=
  match snapshot.stage with
  | .storageFailed _ | .noRound _ | .startFailed .. => none
  | _ => do return (← snapshot.round, ← snapshot.reviewUnit)

/-- The number of a question in a version, or in any. -/
def numberedVersion (id : String) (version : Option Nat) : Option Nat := do
  let is (questionId : String) (questionVersion : Nat) : Bool :=
    questionId = id && version.all (· = questionVersion)
  let overview ← snapshot.overview
  match overview.earlier.reverse.find? fun earlier =>
      is earlier.question.id earlier.question.version with
  | some earlier => some earlier.number
  | none =>
    if snapshot.stage.askedQuestion.any fun asked => is asked.id asked.version then
      snapshot.questionNumber
    else
      let answered ← snapshot.cancellable.bind (·.answered.question)
      if is answered.1 answered.2 then snapshot.answeredNumber else none

/-- The number of a version of a question; an earlier version has its clarification's step. -/
def numberOfQuestion (id : String) (version : Nat) : Option Nat :=
  (snapshot.numberedVersion id (some version)).or (snapshot.numberedVersion id none)

def shows (round : Option PublishedRound) (stage : RoundStage) : Bool :=
  snapshot.stage = stage && snapshot.round = round.map (·.id) &&
    snapshot.reviewUnit = round.map (·.reviewUnit) && snapshot.design = round.bind (·.design) &&
    snapshot.changedFiles = (round.map (·.changedFiles)).getD 0 &&
    snapshot.cancellable = round.bind (·.cancellable) &&
    snapshot.earlier = round.any (·.earlier) && snapshot.overview = round.map (·.overview) &&
    snapshot.earlierCitations = (round.map (·.earlierCitations)).getD []

/-- The snapshot once a stage is published. The same stage of the same round changes nothing. -/
def publishWith (round : Option PublishedRound) (stage : RoundStage) (tally : Option MarkTally) :
    RoundSnapshot :=
  let tally := tally.filter fun tally => snapshot.tally ≠ some tally
  let shown := snapshot.shows round stage
  let next :=
    if shown then
      if tally.isNone then snapshot else { snapshot with revision := snapshot.revision + 1 }
    else { new (snapshot.revision + 1) round stage snapshot.review snapshot.startBlock with
      tally := snapshot.tally }
  if tally.isSome then { next with tally := tally } else next

end RoundSnapshot

/-- The owner's side of one round, which it publishes to every page that shows it. -/
structure RoundPublisher where
  snapshot : RoundSnapshot
  /-- Past rounds are shown in place of a published one. -/
  followed : snapshot.past = false

namespace RoundPublisher

def new (round : Option PublishedRound) (stage : RoundStage) : RoundPublisher :=
  ⟨.new 1 round stage none none, rfl⟩

variable (page : RoundPublisher)

theorem followed_publishWith (round : Option PublishedRound) (stage : RoundStage)
    (tally : Option MarkTally) : (page.snapshot.publishWith round stage tally).past = false := by
  unfold RoundSnapshot.publishWith
  dsimp only
  split_ifs <;> first | exact page.followed | rfl

/-- Publish a stage with how much of the change the review marks cover. -/
def publishCounted (round : Option PublishedRound) (stage : RoundStage) (tally : MarkTally) :
    RoundPublisher :=
  ⟨page.snapshot.publishWith round stage (some tally), page.followed_publishWith round stage _⟩

/-- Name the review the page belongs to. -/
def name (review : ReviewName) : RoundPublisher :=
  if page.snapshot.review = some review then page
  else ⟨{ page.snapshot with revision := page.snapshot.revision + 1, review := some review },
    page.followed⟩

/-- Say why the reviewer cannot start a round, or that one can start. -/
def blockStarts (block : Option StartBlock) : RoundPublisher :=
  if page.snapshot.startBlock = block then page
  else ⟨{ page.snapshot with revision := page.snapshot.revision + 1, startBlock := block },
    page.followed⟩

end RoundPublisher

end ProgressiveReviewer.Page
