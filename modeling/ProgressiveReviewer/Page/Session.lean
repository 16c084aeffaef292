import ProgressiveReviewer.Explore.Recovery
import ProgressiveReviewer.Page.View

/-! What the page shows of the round that the session owns
(`review-explore-session/src/page.rs`, `mark_tally.rs`). Of the session's state only what the page
reads is kept. -/

namespace ProgressiveReviewer.Page

open Library Explore Marks Tallies
open Implementation (ImplementationState)
open RunAhead (TurnPath)

/-- The lists of citations the page shows, and the checkpoint they were found at. -/
structure Shown where
  checkpoint : ReviewCheckpoint
  lists : List (List EvidenceRef)
  citations : List (List Citation)

/-- Citations found in the change, once per stage. -/
structure PageCitations where
  shown : Option Shown

/-- Each list cited, from those shown already when they are the same. -/
def PageCitations.lists (citations : PageCitations) (cite : Comparison → EvidenceRef → Citation)
    (lists : List (List EvidenceRef)) (comparison : Comparison) : List (List Citation) :=
  match citations.shown.filter fun shown =>
      shown.checkpoint = comparison.checkpoint && shown.lists = lists with
  | some shown => shown.citations
  | none => lists.map fun list => list.map (cite comparison)

/-- The citations of a question. -/
def PageCitations.of (citations : PageCitations) (cite : Comparison → EvidenceRef → Citation)
    (question : Question) (comparison : Comparison) : List Citation :=
  (citations.lists cite [question.evidence] comparison).headD []

/-- Where the reviewer's start of a round stands. -/
inductive Start where
  | idle (offer : String)
  | starting (start : String) (startedAtMs : Nat)
  | failed (failure offer : String)
  deriving DecidableEq, Repr

/-- What the page reads of the session. -/
structure ExploreSession where
  round : Option ExploreRound
  storageError : Option String
  start : Start
  /-- The turn that this process delivers, by its round's instance and its request. -/
  pending : Option (String × String)
  /-- A newer round of the review was saved since. -/
  historical : Bool
  /-- Whether this process sends an implementation request. -/
  implementation : Bool
  /-- The path each turn took after an answer to a question run-ahead watched. -/
  paths : SortedMap String TurnPath
  /-- When the fork whose turn the agent continues with started it, by the turn's request. -/
  finishingSince : String → Option Nat
  citations : PageCitations
  earlierCitations : PageCitations
  /-- The lines a citation shows, in the working copy. -/
  cite : Comparison → EvidenceRef → Citation
  /-- The review marks read last, and their snapshot. -/
  marks : List FileMarks
  marksSnapshot : Option Snapshot
  /-- The files whose diff is still the one a comparison captured. -/
  unchangedAt : Comparison → Snapshot → MarkableFiles

/-- The marks of a turn, as an answer to its question applied them. -/
def answerMarks (round : ExploreRound) (request answer : String) : Option TurnMarks :=
  (round.marks.lookup request).filter fun marks => marks.answer = some answer

/-- A turn that the agent is not working on, and why. -/
def interrupted (round : ExploreRound) (request : TurnRequest) (answer : Option SentAnswer) :
    RoundStage :=
  let delivery := round.turns.lookup request.request
  let state : Option DispatchState := delivery.map (·.state)
  let interruption : Interruption := match state, request.responseError with
    | some .notStarted, _ => .notStarted
    | _, some failure => .failed failure
    | some .attempting, none | some .unknown, none => .uncertain
    | _, none => .stopped
  .interrupted (some request.request) (delivery.map (·.attempt)) interruption answer

def pageImplementation (delivery : ImplementationDelivery) (sending : Bool) : PageImplementation where
  delivery := delivery.request.delivery
  attempt := delivery.attempt
  text := delivery.request.text
  state := .of delivery.state sending
  sentAtMs := delivery.sentAtMs

/-- What an answer answered. -/
def answered (answer : ReviewerAnswer) : Answered where
  question := answer.question.map fun question => (question.id, question.version)
  option := answer.option.map (·.id)
  inReplyTo := answer.inReplyTo

namespace ExploreSession

variable (session : ExploreSession)

/-- The reviewer's latest answer, while the reviewer may cancel it. -/
def cancellable : Option LatestAnswer := do
  let round ← session.round
  if session.historical || session.storageError.isSome || !round.implementations.entries.isEmpty then
    none
  let answer ← round.exploration.answers.getLast?
  return ⟨answer.id, (KeptAnswer.of answer).choice, answer.text, Page.answered answer⟩

/-- The reviewer's answer that a turn carries, with the marks it applied. -/
def sentAnswer (round : ExploreRound) (request : TurnRequest) : Option SentAnswer :=
  request.answer.map fun answer =>
    let marks := answerMarks round answer.inReplyTo answer.id
    { question := answer.question.map fun question =>
        ⟨question, session.citations.of session.cite question round.exploration.comparison,
          answer.firstPick.isSome⟩
      kept := .of answer
      marked := (marks.map (·.counts)).getD .zero
      marksProblem := marks.bind (·.problem) }

/-- The marks that the answer a turn follows applied; for a conclusion, its own. -/
def marksFollowed (round : ExploreRound) (turn : ConversationTurn) : Option TurnMarks :=
  match turn.update.conclusion with
  | some _ => round.marks.lookup turn.update.request
  | none => do
    let id ← turn.answer
    let answer ← round.exploration.answers.find? fun kept => kept.id = id
    answerMarks round answer.inReplyTo answer.id

/-- A round with no turn to answer and none to send again: only Reset is left. -/
def nothing : RoundStage := .interrupted none none .stopped none

/-- The question or conclusion that the agent's latest turn posted. -/
def latestTurn (round : ExploreRound) : RoundStage :=
  let exploration := round.exploration
  match exploration.conversation.getLast? with
  | none => nothing
  | some turn =>
    let request := turn.update.request
    let response := { TurnResponse.of exploration turn with
      path := session.paths.lookup request
      marksProblem := (marksFollowed round turn).bind (·.problem) }
    match turn.update.conclusion, turn.update.next with
    | some conclusion, _ =>
      .conclusion request conclusion
        ((round.latestImplementation request).map fun delivery =>
          pageImplementation delivery session.implementation)
        { proofs := session.citations.lists session.cite (conclusion.quiz.map (·.proof))
            exploration.comparison
          answers := (exploration.quizAnswers.lookup request).getD ⟨[], false⟩
          takesAnswers := !session.historical && session.storageError.isNone } response
    | none, some question =>
      .question exploration.questions.length question
        (session.citations.of session.cite question exploration.comparison) (.requested turn.update)
        response exploration.cancelledSinceLastTurn
    | none, none => nothing

def pageStage : RoundStage :=
  match session.storageError, session.round with
  | some failure, _ => .storageFailed failure
  | none, none => match session.start with
    | .idle offer => .noRound offer
    | .starting start startedAtMs => .starting start (some startedAtMs)
    | .failed failure offer => .startFailed failure offer
  | none, some round =>
    let exploration := round.exploration
    match exploration.outstanding, exploration.retry with
    | some request, _ =>
      let answer := session.sentAnswer round request
      -- A pending turn that no prompt of this process carries waits for Retry.
      if session.pending = some (request.instanceId, request.request) then
        .agentWorking request.request ((round.turns.lookup request.request).bind (·.startedAtMs))
          (session.finishingSince request.request) answer
      else interrupted round request answer
    | none, some retry => interrupted round retry (session.sentAnswer round retry)
    | none, none => session.latestTurn round

/-- The files of a snapshot on which the marks of a turn apply. -/
def turnMarkable (round : ExploreRound) (request : String) (snapshot : Snapshot) : MarkableFiles :=
  let comparison := round.exploration.comparison
  let checkpoint := comparison.checkpoint
  let markable :=
    if checkpoint.reviewUnit = snapshot.identity.reviewUnit ∧
        checkpoint.checkpoint = snapshot.identity.snapshotId then .all
    else session.unchangedAt comparison snapshot
  markable.excluding snapshot (((round.turns.lookup request).map (·.diverged)).getD [])

/-- The review marks of the change, with what an answer to the question that waits adds. -/
def markTally : MarkTally :=
  -- An earlier round takes no answer.
  let question := (session.round.filter fun _ => !session.historical).bind (·.exploration.waitingTurn)
  let markable := match session.round, question, session.marksSnapshot with
    | some round, some question, some snapshot => session.turnMarkable round question.request snapshot
    | _, _, _ => .all
  .of session.marks session.round question markable

/-- The round as the page shows it beside its stage. -/
def published : Option PublishedRound :=
  session.round.map fun round =>
    let exploration := round.exploration
    let delivering := (session.pending.filter fun pending => pending.1 = exploration.instanceId).map
      Prod.snd
    let overview := RoundOverview.of round delivering
    { id := exploration.instanceId
      reviewUnit := exploration.comparison.checkpoint.reviewUnit
      design := exploration.design
      changedFiles := exploration.comparison.files.length
      author := exploration.author
      cancellable := session.cancellable
      earlier := session.historical
      overview
      earlierCitations := session.earlierCitations.lists session.cite
        (overview.earlier.map (·.question.evidence)) exploration.comparison }

/-- Publish the stage of the round the session owns. -/
def publishPage (page : RoundPublisher) : RoundPublisher :=
  page.publishCounted session.published session.pageStage session.markTally

end ExploreSession

end ProgressiveReviewer.Page
