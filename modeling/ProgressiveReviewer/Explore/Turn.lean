import Mathlib.Data.String.Basic
import ProgressiveReviewer.Explore.Source

/-! What an Explore round records: the agent's turns, the reviewer's answers and what
they decided (`review-explore/src/interview.rs`, `agenda.rs`, `conclusion.rs`,
`quiz.rs`, `design.rs`, `consequence.rs`, `challenger.rs`, `conversation.rs`,
`revision.rs`, `diagram.rs`). -/

namespace ProgressiveReviewer.Explore

open Library Hunks Marks

inductive TopicStatus where
  | «open»
  | accepted
  | needsFollowUp
  deriving DecidableEq, Repr

instance : Inhabited TopicStatus := ⟨.«open»⟩

/-- Who wrote the change a round reviews. -/
inductive ChangeAuthor where
  | reviewer
  | other
  deriving DecidableEq, Repr

/-- How the agent writes the texts the reviewer reads. -/
inductive WritingStyle where
  | plain
  | simplifiedTechnicalEnglish
  | concise
  deriving DecidableEq, Repr

/-- The choice that leaves a question to the author of the change. -/
def askAuthor : String := "ask-author"

structure Topic where
  id : String
  title : String
  entries : List CodeLocation
  /-- The reviewer's decision on the topic. -/
  status : TopicStatus
  prompt : String
  prerequisites : List String
  rank : Nat
  deriving DecidableEq, Repr

def Topic.withStatus (topic : Topic) (status : TopicStatus) : Topic := { topic with status := status }

def Topic.sameButStatus (topic other : Topic) : Bool := topic = other.withStatus topic.status

structure Alternative where
  id : String
  text : String
  outcome : TopicStatus
  recommendation : Option String
  deriving DecidableEq, Repr

inductive Door where
  | oneWay
  | twoWay
  | mixed
  | unknown
  deriving DecidableEq, Repr

structure Consequence where
  summary : String
  details : String
  evidence : List EvidenceRef
  unknowns : List String
  deriving DecidableEq, Repr

structure Assessments where
  door : Door
  reversibility : Consequence
  blastRadius : Consequence
  deriving DecidableEq, Repr

structure Question where
  id : String
  version : Nat
  topic : String
  text : String
  rationale : Option String
  visual : Option String
  alternatives : List Alternative
  evidence : List EvidenceRef
  assessments : Option Assessments
  deriving DecidableEq, Repr

/-- Every question has a reviewer-owned escape from its proposed alternatives. -/
def noneOfTheAbove : Alternative := ⟨"none-of-the-above", "None of the above", .«open», none⟩

namespace Question

def isVersion (question : Question) (id : String) (version : Nat) : Bool :=
  question.id = id && question.version = version

/-- The displayed choices. -/
def choices (question : Question) : List Alternative := question.alternatives ++ [noneOfTheAbove]

def choice (question : Question) (id : String) : Option Alternative :=
  question.choices.find? fun choice => choice.id = id

end Question

/-- A literal reviewer contribution. -/
structure ReviewerAnswer where
  id : String
  checkpoint : ReviewCheckpoint
  question : Option Question
  inReplyTo : String
  option : Option Alternative
  text : String
  author : String
  firstPick : Option String
  /-- The reviewer sent the agent back to the drawing board. -/
  drawingBoard : Bool
  deriving DecidableEq, Repr

structure AnswerInput where
  option : Option String
  text : String
  inReplyTo : Option String
  firstPick : Option String
  drawingBoard : Bool
  deriving DecidableEq, Repr

structure Interpretation where
  answer : String
  status : TopicStatus
  recap : String
  followUps : List String
  deriving DecidableEq, Repr

inductive NotRelevantReason where
  | removedCode
  | testedMechanics
  | followsCode
  deriving DecidableEq, Repr

/-- Lines of a test, at the reviewed checkpoint. -/
structure TestLocation where
  path : RepoPath
  lines : SourceLineRange
  deriving DecidableEq, Repr

/-- Changed lines that hold no decision, and why. -/
structure NotRelevantMark where
  location : CodeLocation
  reason : Option NotRelevantReason
  test : Option TestLocation
  deriving DecidableEq, Repr

inductive ProposalResult where
  | asked
  | merged
  | retired
  | kept
  deriving DecidableEq, Repr

/-- One question the challenger proposed, and what became of it on a turn. -/
structure ChallengerProposal where
  title : String
  result : ProposalResult
  reason : Option String
  deriving DecidableEq, Repr

structure Reply where
  text : String
  evidence : List EvidenceRef
  deriving DecidableEq, Repr

structure DesignPart where
  thesis : Option String
  body : String
  deriving DecidableEq, Repr

structure Design where
  thesis : Option String
  overview : DesignPart
  dataFlow : DesignPart
  algorithm : DesignPart
  alternatives : DesignPart
  deriving DecidableEq, Repr

inductive AgendaAction where
  | retire
  | supersede
  | reconsider
  deriving DecidableEq, Repr

/-- Whether the topic leaves the agenda. -/
def AgendaAction.closes (action : AgendaAction) : Bool := action = .retire || action = .supersede

structure AgendaChange where
  topic : String
  action : AgendaAction
  reason : String
  answer : Option String
  evidence : List EvidenceRef
  replacement : Option String
  /-- The answer whose recorded decision needs reconsideration. -/
  decision : Option String
  deriving DecidableEq, Repr

structure QuizItem where
  question : String
  answers : List String
  correct : Nat
  why : String
  proof : List EvidenceRef
  level : String
  deriving DecidableEq, Repr

structure Conclusion where
  summary : String
  toBeImplemented : String
  futureWork : String
  quiz : List QuizItem
  quizEmptyReason : Option String
  deriving DecidableEq, Repr

/-- One turn of the agent. -/
structure InterviewUpdate where
  instanceId : String
  request : String
  checkpoint : ReviewCheckpoint
  interpretation : Option Interpretation
  reviewed : List CodeLocation
  reopened : List CodeLocation
  notRelevant : List NotRelevantMark
  challengerProposals : List ChallengerProposal
  reply : Option Reply
  design : Option Design
  glossary : SortedMap String String
  agenda : List AgendaChange
  topics : List Topic
  next : Option Question
  conclusion : Option Conclusion
  limitations : List String
  findings : List String
  deriving DecidableEq

/-- One request to the agent. -/
structure TurnRequest where
  instanceId : String
  request : String
  checkpoint : ReviewCheckpoint
  answer : Option ReviewerAnswer
  /-- Answers the reviewer cancelled since the agent's previous request. -/
  cancelled : List String
  responseError : Option String
  challenger : Bool
  author : ChangeAuthor
  reviewer : Option String
  writing : WritingStyle
  deriving DecidableEq

namespace TurnRequest

/-- Whether the request opens its round. -/
def isKickoff (request : TurnRequest) : Bool := request.answer.isNone

def atDrawingBoard (request : TurnRequest) : Bool := request.answer.any (·.drawingBoard)

/-- Whether the request carries the answer `id`. -/
def carries (request : TurnRequest) (id : String) : Bool := request.answer.any (·.id = id)

end TurnRequest

/-- Why the agent revised the open question. -/
structure Revision where
  message : String
  reason : String
  deriving DecidableEq, Repr

/-- The agent's new version of the round's open question. -/
structure QuestionRevision where
  instanceId : String
  checkpoint : ReviewCheckpoint
  revision : Revision
  question : Question
  glossary : SortedMap String String
  deriving DecidableEq

/-- Agent output, linked to the reviewer contribution it responds to. A turn with a
revision follows the same answer as the turn it revised. -/
structure ConversationTurn where
  answer : Option String
  update : InterviewUpdate
  revision : Option Revision
  deriving DecidableEq

/-- A diagram in a question's text that the page could not draw. -/
structure DiagramError where
  question : String
  version : Nat
  source : String
  message : String
  deriving DecidableEq, Repr

structure QuizPick where
  item : Nat
  answer : Nat
  correct : Bool
  deriving DecidableEq, Repr

/-- What the reviewer did with the quiz of one conclusion. -/
structure QuizAnswers where
  picks : List QuizPick
  skipped : Bool
  deriving DecidableEq, Repr

/-- What the turns of the conversation decided. -/
structure Decided where
  topics : SortedMap String Topic
  questions : List Question
  interpretations : List Interpretation
  limitations : List String
  findings : List String
  glossary : SortedMap String String
  conclusion : Option Conclusion
  deriving DecidableEq

def Decided.nothing : Decided := ⟨.empty, [], [], [], [], .empty, none⟩

/-- The sole decision owner. -/
structure Exploration extends Decided where
  instanceId : String
  comparison : Comparison
  answers : List ReviewerAnswer
  conversation : List ConversationTurn
  /-- Time from a posted request to its accepted response. -/
  agentElapsedMs : SortedMap String Nat
  outstanding : Option TurnRequest
  retry : Option TurnRequest
  /-- Cancelled answers the next request tells the agent about. -/
  cancelled : List String
  challenger : Bool
  author : ChangeAuthor
  reviewer : Option String
  writing : WritingStyle
  diagramErrors : List DiagramError
  quizAnswers : SortedMap String QuizAnswers
  deriving DecidableEq

namespace Exploration

/-- A round before its first request. -/
def new (instanceId : String) (comparison : Comparison) : Exploration where
  toDecided := .nothing
  instanceId := instanceId
  comparison := comparison
  answers := []
  conversation := []
  agentElapsedMs := .empty
  outstanding := none
  retry := none
  cancelled := []
  challenger := false
  author := .reviewer
  reviewer := none
  writing := .plain
  diagramErrors := []
  quizAnswers := .empty

variable (exploration : Exploration)

/-- The round with the reviewer's choices at its start. -/
def choose (challenger : Bool) (author : ChangeAuthor) (reviewer : Option String)
    (writing : WritingStyle) : Exploration :=
  { exploration with
    challenger := challenger, author := author, reviewer := reviewer, writing := writing }

def topicStatus (id : String) : Option TopicStatus :=
  (exploration.topics.lookup id).map (·.status)

/-- The answer `id`, when the round holds it. -/
def answer? (id : String) : Option ReviewerAnswer :=
  exploration.answers.find? fun answer => answer.id = id

/-- The human answer the agent works on. -/
def outstandingAnswer : Option ReviewerAnswer :=
  exploration.outstanding.bind (·.answer)

/-- The answer whose question belongs to a topic. -/
def answersTopic (id topic : String) : Bool :=
  exploration.answers.any fun answer => answer.id = id && answer.question.any (·.topic = topic)

/-- The latest agenda change on a topic, read from the last turn back. -/
def agendaChangeFrom (topic : String) (changes : List AgendaChange) :
    List ConversationTurn → Option AgendaChange
  | [] => none
  | turn :: earlier =>
    match turn.update.agenda.find? fun change => change.topic = topic with
    | some change => some change
    | none =>
      if turn.update.interpretation.any fun interpretation =>
          interpretation.status ≠ .«open» && exploration.answersTopic interpretation.answer topic
      -- A later decision of the reviewer resolves a reconsideration.
      then (changes.find? fun change => change.topic = topic).filter fun change =>
        change.action ≠ .reconsider
      else agendaChangeFrom topic changes earlier

def agendaChange (topic : String) : Option AgendaChange :=
  exploration.agendaChangeFrom topic
    (exploration.conversation.reverse.flatMap (·.update.agenda)) exploration.conversation.reverse

def canChoose (question : Question) : Bool :=
  let active := match (exploration.agendaChange question.topic).map (·.action) with
    | some .retire | some .supersede => false
    | some .reconsider => true
    | none => (exploration.topics.lookup question.topic).any (·.status = .«open»)
  active && !(exploration.answers.any fun answer => answer.question = some question) &&
    !(exploration.questions.any fun newer =>
      newer.id = question.id && question.version < newer.version)

/-- The request of the agent's turn that posted the current conclusion. -/
def conclusionRequest : Option String :=
  if exploration.conclusion.isSome then
    (exploration.conversation.getLast?.filter (·.update.conclusion.isSome)).map (·.update.request)
  else none

end Exploration

end ProgressiveReviewer.Explore
