import ProgressiveReviewer.Page.Question
import ProgressiveReviewer.Page.Status
import ProgressiveReviewer.Wakeups.Worker

/-! The round's conversation with the agent as the chat shows it
(`review-round-conversation/src/lib.rs`, `review-explore-page/src/conversation.rs`,
`review-explore-page/src/view/conversation.rs`). -/

namespace ProgressiveReviewer.Threads

open Wakeups (WakeupFailure)

/-- What became of a message the reviewer wrote. -/
inductive Delivery where
  | waiting
  | notDelivered (error : String)
  | answered
  deriving DecidableEq, Repr

/-- One message of a round's conversation. -/
structure ConversationMessage where
  id : MessageId
  author : Author
  text : String
  postedAtMs : Option Nat
  askedUnder : Option AskedUnder
  quote : Option String
  /-- None for an agent's reply. -/
  delivery : Option Delivery
  unread : Bool
  deriving DecidableEq, Repr

def ConversationMessage.new (thread : ReviewThread) (message : Message)
    (failure : Option WakeupFailure) : ConversationMessage where
  id := message.id
  author := message.author
  text := message.text
  postedAtMs := message.postedAtMs
  askedUnder := message.askedUnder
  quote := message.quote
  delivery :=
    if message.author = .reviewer then
      if thread.isAnswered message then some .answered
      else match failure.filter fun failure => message.sequence ≤ failure.through with
        | some failure => some (.notDelivered failure.error)
        | none => some .waiting
    else none
  unread := thread.hasUnreadReply message.id

/-- The conversation of one round, as the reviewer reads it. -/
structure RoundConversation where
  round : String
  messages : List ConversationMessage
  /-- The agent's replies the reviewer has not read. -/
  unread : Nat
  canRetry : Bool
  /-- The position to mark read through. -/
  readThrough : Nat
  deriving DecidableEq, Repr

def ReviewThreads.roundConversation (book : ReviewThreads) (round : String) : Option ReviewThread :=
  book.thread ("explore-round-" ++ round)

def RoundConversation.new (book : ReviewThreads) (round : String)
    (failure : Option WakeupFailure) : RoundConversation :=
  let thread := book.roundConversation round
  { round
    messages := match thread with
      | none => []
      | some thread => thread.messages.map fun message => .new thread message failure
    unread := match thread with
      | none => 0
      | some thread => (thread.messages.filter fun message => thread.hasUnreadReply message.id).length
    canRetry := thread.any fun thread => (book.retry thread.id).isOk
    readThrough := book.sequence }

end ProgressiveReviewer.Threads

namespace ProgressiveReviewer.Page

open Threads
open Wakeups (WakeupFailure)

/-- The review threads as their owner holds them, with what became of the latest wakeups. -/
structure ThreadsSnapshot where
  byReview : ReviewUnit → Option ReviewThreads
  failures : ReviewUnit → Option WakeupFailure

/-- The conversation of a round: empty until the threads are loaded. -/
def ThreadsSnapshot.conversation (threads : ThreadsSnapshot) (unit : ReviewUnit) (round : String) :
    RoundConversation :=
  .new ((threads.byReview unit).getD (.new unit)) round (threads.failures unit)

/-- One message of the conversation. -/
structure ChatMessageView where
  id : MessageId
  author : Author
  html : String
  postedAtMs : Option Nat
  /-- Where in the round it was written, as the rail names it. -/
  place : Option String
  quote : Option String
  delivery : Option Delivery
  unread : Bool
  deriving DecidableEq, Repr

/-- The conversation of the round the page shows. -/
structure ConversationView where
  round : String
  messages : List ChatMessageView
  unread : Nat
  readThrough : Nat
  card : Option StatusCard
  writable : Bool
  deriving DecidableEq, Repr

/-- The step of the rail where a message was written. -/
def place (round : RoundSnapshot) : AskedUnder → Option String
  | .question question version _ =>
    (round.numberOfQuestion question version).map fun number => "Q" ++ toString number
  | .design => some "Design"
  | .conclusion _ => some "Conclusion"

def ChatMessageView.new (draw : Drawing) (round : RoundSnapshot) (message : ConversationMessage) :
    ChatMessageView where
  id := message.id
  author := message.author
  html := draw.markdown message.text 3
  postedAtMs := message.postedAtMs
  place := message.askedUnder.bind (Page.place round)
  quote := message.quote
  delivery := message.delivery
  unread := message.unread

namespace ConversationView

def undelivered (message : ConversationMessage) : Option String :=
  match message.delivery with
  | some (.notDelivered error) => some error
  | _ => none

def new (draw : Drawing) (round : RoundSnapshot) (conversation : RoundConversation) :
    ConversationView :=
  let writable := !round.earlier
  { round := conversation.round
    messages := conversation.messages.map (ChatMessageView.new draw round)
    unread := conversation.unread
    readThrough := conversation.readThrough
    card := ((conversation.messages.findSome? undelivered).filter fun _ =>
      writable && conversation.canRetry).map fun error =>
        StatusCard.undeliveredMessages error conversation.round
    writable }

/-- The conversation of the round that the page shows, when it offers one. -/
def of (draw : Drawing) (round : RoundSnapshot) (threads : ThreadsSnapshot) :
    Option ConversationView :=
  round.conversationRound.map fun (id, unit) => new draw round (threads.conversation unit id)

end ConversationView

end ProgressiveReviewer.Page

/-! What the page's client draws, built from the latest stage the round's owner published
(`review-explore-page/src/view.rs`, `view/earlier.rs`, `sent.rs`, `conclusion.rs`). -/

namespace ProgressiveReviewer.Page

open Library Explore Marks Tallies
open Implementation (ImplementationState)

structure InterpretationView where
  recapHtml : Option String
  followUps : List String
  deriving DecidableEq, Repr

/-- What the agent's turn said back to the reviewer's previous answer. -/
structure ResponseView where
  interpretations : List InterpretationView
  replyHtml : Option String
  pathLine : Option String
  marksProblem : Option String
  deriving DecidableEq, Repr

namespace ResponseView

def new (draw : Drawing) (response : TurnResponse) : ResponseView where
  interpretations := response.interpretations.map fun interpretation =>
    ⟨draw.markdownIfAny interpretation.recap 2, interpretation.followUps⟩
  replyHtml := response.reply.map fun reply => draw.markdown reply 2
  pathLine := response.pathLine
  marksProblem := response.marksProblem

/-- What the agent recorded of an earlier answer. -/
def ofRecord (draw : Drawing) (record : AgentRecord) : ResponseView :=
  new draw ⟨record.interpretation.toList, record.reply.filter fun text => !isBlank text, none, none,
    none⟩

end ResponseView

/-- A question answered earlier in the round, read only. -/
structure EarlierQuestionView where
  number : Nat
  textHtml : String
  door : Option Door
  contextHtml : Option String
  sections : List SectionView
  choices : List ChoiceView
  answer : Option KeptAnswer
  recorded : ResponseView
  marks : List MarkPhrase
  marksProblems : List String
  citations : List CitationView
  id : String
  version : Nat
  cancel : Option CancelFrom
  deriving DecidableEq, Repr

namespace EarlierQuestionView

def new (draw : Drawing) (record : EarlierQuestion) (citations : List Citation)
    (cancellable : Bool) : EarlierQuestionView :=
  let question := record.question
  { number := record.number
    textHtml := draw.markdown question.text 2
    door := question.assessments.map (·.door)
    contextHtml := draw.markdownIfAny question.context 2
    sections := (question.assessments.toList.flatMap (·.sections)).map fun part => .new draw part 2
    choices := ChoiceView.kept question (record.answer.bind (·.choice))
    answer := record.answer
    recorded := .ofRecord draw record.recorded
    marks := (record.marks.map fun marks => marks.counts.coveredPhrase .applied).filter fun phrase =>
      !phrase.parts.isEmpty
    marksProblems := record.marks.filterMap (·.problem)
    citations := citations.map .new
    id := question.id
    version := question.version
    cancel := record.cancel.filter fun _ => cancellable }

/-- Each record with its citations, in the same order. -/
def all (draw : Drawing) (records : List EarlierQuestion) (citations : List (List Citation))
    (cancellable : Bool) : List EarlierQuestionView :=
  records.zipIdx.map fun (record, index) => new draw record (citations[index]?.getD []) cancellable

end EarlierQuestionView

/-- The reviewer's answer that the agent's turn carries. -/
structure SentView where
  card : StatusCard
  number : Option Nat
  question : Option QuestionView
  answer : KeptAnswer
  marked : Option MarkPhrase
  marksProblem : Option String
  deriving DecidableEq, Repr

def SentView.of (draw : Drawing) (round : RoundSnapshot) (offersActions : Bool) : Option SentView := do
  let sent ← round.stage.sent.filter fun _ => offersActions || round.past
  let number := round.sentNumber
  let marked := sent.marked.coveredPhrase .applied
  return {
    card := ← StatusCard.ofTurn round offersActions
    number
    question := sent.question.map fun answered =>
      (QuestionView.answered draw round.round (number.getD 0) answered).keeping sent.kept.choice
    answer := sent.kept
    marked := if marked.parts.isEmpty then none else some marked
    marksProblem := sent.marksProblem }

/-! The agent's conclusion. -/

/-- How the panel shows the list to be implemented. -/
inductive ListView where
  | editable
  | draft (html : String)
  | request (label : String) (settled edit newRound : Bool)
  deriving DecidableEq, Repr

def ListView.new (draw : Drawing) (draft : String) (implementation : Option PageImplementation)
    (offersActions offersImplement : Bool) : ListView :=
  match implementation with
  | none => if offersImplement then .editable else .draft (draw.markdown draft 3)
  | some implementation =>
    if !offersActions then .request "The request" true false false
    else match implementation.state with
      | .paused => .request "Saved request" false offersImplement false
      | .notStarted => .request "The request" false false false
      | .sent => .request "Sent" true false true
      | .notSent _ | .cancelled =>
        if offersImplement then .editable else .request "The request" true false false
      | .unknown | .sending => .request "The request" true false false

/-- A question the reviewer answered, and the answer kept. -/
structure DecisionView where
  number : Nat
  questionHtml : String
  choice : Option String
  comment : String
  tags : List DecisionTag
  deriving DecidableEq, Repr

def DecisionView.new (draw : Drawing) (decision : Decision) : DecisionView where
  number := decision.number
  questionHtml := draw.markdown decision.question 3
  choice := decision.answer.choice
  comment := decision.answer.comment
  tags := decision.answer.tags

structure QuizAnswerView where
  index : Nat
  text : String
  correct : Bool
  picked : Bool
  deriving DecidableEq, Repr

structure QuizItemView where
  number : Nat
  question : String
  answers : List QuizAnswerView
  pickedCorrect : Option Bool
  correctAnswer : String
  why : String
  proof : List CitationView
  deriving DecidableEq, Repr

def QuizItemView.new (index : Nat) (item : QuizItem) (proof : List Citation) (picked : Option Nat) :
    QuizItemView where
  number := index + 1
  question := item.question
  answers := item.answers.zipIdx.map fun (text, option) =>
    ⟨option, text, option = item.correct, picked = some option⟩
  pickedCorrect := picked.map fun picked => picked = item.correct
  correctAnswer := item.answers[item.correct]?.getD ""
  why := item.why
  proof := proof.map .new

structure QuizView where
  items : List QuizItemView
  next : Option Nat
  correctPicks : Nat
  picked : Nat
  skipped : Bool
  deriving DecidableEq, Repr

def QuizView.new (items : List QuizItem) (quiz : PageQuiz) : QuizView where
  items := items.zipIdx.map fun (item, index) =>
    .new index item (quiz.proofs[index]?.getD []) ((quiz.answers.pick index).map (·.answer))
  -- A quiz the round cannot save answers to asks nothing.
  next := (quiz.answers.nextItem items.length).filter fun _ => quiz.takesAnswers
  correctPicks := quiz.answers.correctPicks
  picked := quiz.answers.picks.length
  skipped := quiz.answers.skipped

structure ImplementationView where
  delivery : String
  textHtml : String
  deriving DecidableEq, Repr

structure ConclusionView where
  request : String
  leadHtml : Option String
  summaryHtml : String
  decisions : List DecisionView
  futureWorkHtml : Option String
  draft : String
  list : ListView
  implementation : Option ImplementationView
  implementationCard : Option StatusCard
  replyLabel : Option String
  postsReview : Bool
  quiz : Option QuizView
  deriving DecidableEq, Repr

namespace ConclusionView

/-- Where a text stands first in another. -/
def find (text pattern : List Char) : Option Nat :=
  text.tails.findIdx? fun rest => pattern.isPrefixOf rest

/-- The rendered summary split into its first paragraph, which leads the conclusion, and the
rest. -/
def lead (html : String) : Option String × String :=
  let chars := html.toList
  match find chars "</p>".toList with
  | some «end» =>
    if "<p>".toList.isPrefixOf chars then
      (some (String.ofList (chars.take («end» + 4))),
        String.ofList ((chars.drop («end» + 4)).dropWhile isWhitespace))
    else (none, html)
  | none => (none, html)

def of (draw : Drawing) (round : RoundSnapshot) (offersActions : Bool) : Option ConclusionView :=
  match round.stage with
  | .conclusion request conclusion implementation quiz _ =>
    let offersImplement := offersActions &&
      round.stage.offersImplement request (implementation.map (·.delivery))
    let postsReview := round.author = .other
    let draft := match implementation with
      | some implementation =>
        if offersImplement then implementation.text else conclusion.toBeImplemented
      | none => conclusion.toBeImplemented
    let (leadHtml, summaryHtml) := lead (draw.markdown conclusion.summary 2)
    some {
      request, leadHtml, summaryHtml, draft, postsReview
      decisions := (round.overview.map (·.decisions)).getD [] |>.map (DecisionView.new draw)
      futureWorkHtml := draw.markdownIfAny conclusion.futureWork 3
      list := .new draw draft implementation offersActions offersImplement
      implementation := implementation.map fun implementation =>
        ⟨implementation.delivery, draw.markdown implementation.text 3⟩
      implementationCard := implementation.map fun implementation =>
        StatusCard.implementation implementation request offersActions offersImplement postsReview
      replyLabel := if offersActions then
          some (if implementation.any (·.state = .sent) then "Reply to the agent"
            else "Not ready? Reply to the agent instead")
        else none
      quiz := if conclusion.quiz.isEmpty then none else some (.new conclusion.quiz quiz) }
  | _ => none

end ConclusionView

/-! The whole page. -/

structure DesignPartView where
  title : String
  thesisHtml : String
  bodyHtml : String
  deriving DecidableEq, Repr

/-- The design of the change, which opens the round. -/
structure DesignView where
  thesisHtml : String
  parts : List DesignPartView
  minutes : Nat
  changedFiles : Nat
  deriving DecidableEq, Repr

def DesignView.new (draw : Drawing) (design : Design) (changedFiles : Nat) : DesignView where
  thesisHtml := draw.renderInline 3 (draw.thesis design)
  parts := (draw.parts design).map fun part =>
    ⟨part.title, draw.renderInline 3 part.thesis, draw.markdown part.body 3⟩
  minutes := draw.readingMinutes design
  changedFiles := changedFiles

/-- The start cover, when no round is running. -/
structure StartView where
  start : String
  idle : Bool
  block : Option String
  deriving DecidableEq, Repr

/-- The past round that the page shows in place of the round it follows. -/
structure PastView where
  round : String
  savedAtMs : Nat
  currentWaits : Bool
  deriving DecidableEq, Repr

structure PastRoundEntry where
  id : String
  savedAtMs : Nat
  deriving DecidableEq, Repr

/-- The saved rounds of one change. -/
structure PastChange where
  title : String
  revision : ShortRevision
  rounds : List PastRoundEntry
  deriving DecidableEq, Repr

/-- The round as the page shows it. -/
structure PageView where
  review : Option ReviewName
  start : Option StartView
  cards : List StatusCard
  cancellable : Option LatestAnswer
  answered : Option Nat
  design : Option DesignView
  response : Option ResponseView
  question : Option QuestionView
  conclusion : Option ConclusionView
  reset : Option String
  earlier : Bool
  mermaid : String
  rail : List RailStep
  title : Option TabTitle
  tally : Option MarkTally
  earlierQuestions : List EarlierQuestionView
  sent : Option SentView
  conversation : Option ConversationView
  glossary : SortedMap String String
  past : Option PastView
  pastRounds : Option (List PastChange)

/-- The view of a round, with the first picks that this page keeps, and the conversation from the
review threads, when the page offers one. -/
def PageView.new (draw : Drawing) (round : RoundSnapshot) (picks : FirstPicks)
    (threads : Option ThreadsSnapshot) : PageView :=
  -- An earlier round offers Reset only, and a past round nothing.
  let offersActions := !round.earlier
  let cards := StatusCard.aboveStage round offersActions
  let storageFailed := round.stage.isStorageFailed
  { cards
    review := round.review
    start := round.stage.offeredStart.map fun start =>
      ⟨start, !StatusCard.sayStart cards, StatusCard.startBlock cards⟩
    cancellable := round.cancellable.filter fun _ => offersActions && !storageFailed
    answered := round.answeredNumber
    design := round.design.map fun design => .new draw design round.changedFiles
    response := round.stage.response.map (ResponseView.new draw)
    question := QuestionView.of draw round picks
    conclusion := ConclusionView.of draw round offersActions
    reset := round.round.filter fun _ => !storageFailed && !round.past
    earlier := round.earlier
    mermaid := draw.scriptPath
    rail := (round.overview.map (·.rail)).getD []
    title := (round.overview.filter fun _ => !storageFailed).map (·.title)
    earlierQuestions := match round.overview with
      | none => []
      -- An earlier answer can be cancelled while the latest one can.
      | some overview => EarlierQuestionView.all draw overview.earlier round.earlierCitations
          (offersActions && round.cancellable.isSome)
    tally := round.tally
    sent := SentView.of draw round offersActions
    conversation := threads.bind (ConversationView.of draw round)
    glossary := (round.overview.map (·.glossary)).getD .empty
    past := none
    pastRounds := none }

end ProgressiveReviewer.Page
