import ProgressiveReviewer.Explore.Interview

/-! A round as it is saved: the interview with the deliveries of its requests
(`review-explore/src/durable.rs`, `cancel.rs`, `recovery.rs`, `conclusion.rs`), and how
the session and the store change a saved round (`review-explore-session/src/records.rs`,
`review-store/src/explore.rs`). -/

namespace ProgressiveReviewer.Explore

open Library Hunks Marks

structure AgentSession where
  source : String
  agent : String
  kind : String
  value : String
  deriving DecidableEq, Repr

/-- A native agent, as far as a round identifies it. -/
structure Agent where
  agent : Option String
  agentSession : Option AgentSession
  deriving DecidableEq, Repr

/-- A native conversation identity observed while handling this round. -/
structure ConversationBinding where
  agent : Option String
  session : AgentSession
  deriving DecidableEq, Repr

def ConversationBinding.fromAgent (agent : Agent) : Option ConversationBinding :=
  agent.agentSession.map fun session => ⟨agent.agent, session⟩

/-- What the dispatcher can prove of a delivery. -/
inductive DispatchState where
  | queued
  | attempting
  | delivered
  | notStarted
  | notSent (reason : String)
  | cancelled
  | unknown
  deriving DecidableEq, Repr

def DispatchState.mayRetry : DispatchState → Bool
  | .queued | .notStarted | .notSent _ | .cancelled => true
  | .attempting | .delivered | .unknown => false

/-- Explicit human authorization, bound to the conclusion that supplied the editor. -/
structure ImplementationRequest where
  instanceId : String
  conclusion : String
  delivery : String
  text : String
  deriving DecidableEq, Repr

structure ImplementationDelivery where
  authorizedAt : Nat
  attempt : String
  request : ImplementationRequest
  state : DispatchState
  sentAtMs : Option Nat
  deriving DecidableEq, Repr

/-- A particular queued attempt. -/
inductive DispatchId where
  | interview (request attempt : String)
  | implementation (request attempt : String)
  deriving DecidableEq, Repr

structure DispatchResult where
  id : DispatchId
  began : Bool
  state : DispatchState
  deriving DecidableEq, Repr

structure InterviewDelivery where
  attempt : String
  request : TurnRequest
  state : DispatchState
  startedAtMs : Option Nat
  /-- The changed files whose diff differed from the round's when the turn came. -/
  diverged : List String
  deriving DecidableEq

/-- The first conclusion the round accepted, which authorizes implementation. -/
structure ReviewCompletion where
  request : String
  baseline : String
  deriving DecidableEq, Repr

structure ExploreRound where
  revision : Nat
  exploration : Exploration
  lastAgentSession : Option ConversationBinding
  turns : SortedMap String InterviewDelivery
  implementations : SortedMap String ImplementationDelivery
  completion : Option ReviewCompletion
  /-- The review marks each agent turn changed, by request. -/
  marks : SortedMap String TurnMarks
  deriving DecidableEq

namespace ExploreRound

def new (exploration : Exploration) : ExploreRound where
  revision := 0
  exploration := exploration
  lastAgentSession := none
  turns := .empty
  implementations := .empty
  completion := none
  marks := .empty

variable (round : ExploreRound)

/-- Validate on a candidate so rejection retains the pending request and answer; whether
the update was new. -/
def submit (world : World) (now : Nat) (update : InterviewUpdate) :
    Except String (Bool × ExploreRound) := do
  let (applied, candidate) ← round.exploration.submit world update
  if applied then
    let elapsed := match (round.turns.lookup update.request).bind (·.startedAtMs) with
      | some started => candidate.agentElapsedMs.insert update.request (now - started)
      | none => candidate.agentElapsedMs
    return (true, { round with exploration := { candidate with agentElapsedMs := elapsed } })
  else return (false, round)

/-- The reviewer's input behind a posted answer. -/
def inputOf (answer : ReviewerAnswer) : AnswerInput where
  option := answer.option.map (·.id)
  text := answer.text
  inReplyTo := some answer.inReplyTo
  firstPick := answer.firstPick
  drawingBoard := answer.drawingBoard

/-- Send a request that the round holds again, under a new attempt. -/
def resend (request : TurnRequest) (previous : InterviewDelivery) (attempt : String) :
    Except String (Bool × ExploreRound) := do
  ensure (round.exploration.retry.any (·.request = request.request) ∧
      round.exploration.outstanding.all (·.request = request.request))
    "This interrupted turn has been superseded; restore the latest question"
  ensure (previous.request.answer = request.answer ∧
      previous.request.checkpoint = request.checkpoint)
    "This turn identity already has different content"
  ensure (¬round.exploration.conversation.any (·.update.request = request.request))
    "The response is already saved; restore it instead of sending again"
  let delivery : InterviewDelivery :=
    { previous with attempt := attempt, state := .queued, request := request, startedAtMs := none }
  return (false, { round with
    exploration := { round.exploration with outstanding := some request, retry := some request }
    turns := round.turns.insert request.request delivery })

/-- The answers of the round with a new one, checked against the one the round would
record for the same input. -/
def admitAnswer (expected : Option ReviewerAnswer) (request : TurnRequest) :
    Except String (List ReviewerAnswer) :=
  match expected, request.answer with
  | some expected, some answer => do
    ensure ({ expected with id := answer.id } = answer)
      "Answer content does not match the displayed question"
    ensure (¬round.exploration.answers.any (·.id = answer.id)) "Answer identity already used"
    return round.exploration.answers ++ [answer]
  | _, _ => .ok round.exploration.answers

/-- Accept an already attributed contribution against the latest stored state. -/
def post (request : TurnRequest) (fresh : FreshIds) (attempt : String) :
    Except String (Bool × ExploreRound) := do
  ensure (request.instanceId = round.exploration.instanceId ∧
      request.checkpoint = round.exploration.comparison.checkpoint)
    "This answer belongs to another Explore round"
  match round.turns.lookup request.request with
  | some previous => round.resend request previous attempt
  | none =>
    let (validated, _) ← round.exploration.request (request.answer.map inputOf)
      (request.answer.bind (·.question)) fresh
    ensure (validated.cancelled = request.cancelled)
      "This turn does not name the answers cancelled since the last one"
    let answers ← round.admitAnswer validated.answer request
    let delivery : InterviewDelivery := ⟨attempt, request, .queued, none, []⟩
    return (true, { round with
      exploration := { round.exploration with
        cancelled := []
        answers := answers
        outstanding := some request
        retry := some request }
      turns := round.turns.insert request.request delivery })

/-- Whether the current conclusion can be implemented. -/
def validateImplementation (exploration : Exploration) (text : String) : Except String Unit := do
  ensure exploration.outstanding.isNone "Wait for the pending interview turn"
  ensure exploration.conclusion.isSome "No current conclusion to implement"
  ensure (!isBlank text) "Add implementation tasks first"
  ensure exploration.conclusionRequest.isSome "No accepted conclusion to implement"

def authorize (request : ImplementationRequest) (attempt : String) :
    Except String (Bool × ExploreRound) := do
  ensure round.completion.isSome "Explore has not accepted a conclusion"
  ensure (request.instanceId = round.exploration.instanceId ∧
      round.exploration.conclusionRequest = some request.conclusion)
    "This conclusion is no longer current"
  validateImplementation round.exploration request.text
  match round.implementations.lookup request.delivery with
  | some previous =>
    ensure (previous.request = request) "Implementation authorization cannot change"
    ensure previous.state.mayRetry "Implementation delivery is already sent or uncertain"
    let delivery := { previous with attempt := attempt, state := .queued }
    return (false, { round with
      implementations := round.implementations.insert request.delivery delivery })
  | none =>
    let delivery : ImplementationDelivery := ⟨round.revision + 1, attempt, request, .queued, none⟩
    return (true, { round with
      implementations := round.implementations.insert request.delivery delivery })

/-- The state of an attempt that still is the latest. -/
def dispatchState : DispatchId → Option DispatchState
  | .interview request attempt =>
    ((round.turns.lookup request).filter (·.attempt = attempt)).map (·.state)
  | .implementation request attempt =>
    ((round.implementations.lookup request).filter (·.attempt = attempt)).map (·.state)

def setDispatchState (state : DispatchState) : DispatchId → ExploreRound
  | .interview request _ =>
    { round with turns := round.turns.modify request fun record => { record with state := state } }
  | .implementation request _ =>
    { round with implementations := round.implementations.modify request fun record =>
        { record with state := state } }

/-- An interview turn starts to wait for its answer. -/
def started (now : Nat) : DispatchId → ExploreRound
  | .interview request _ =>
    { round with turns := round.turns.modify request fun record =>
        { record with startedAtMs := some now } }
  | .implementation _ _ => round

/-- An interview turn is dispatched only while it is outstanding. -/
def validateDispatch : DispatchId → Except String Unit
  | .interview request _ =>
    ensure (round.exploration.outstanding.any (·.request = request))
      "Interview turn cancelled or superseded"
  | .implementation _ _ => .ok ()

def beginDispatch (id : DispatchId) (agent : Agent) (now : Nat) : Except String ExploreRound := do
  round.validateDispatch id
  let bound := { round with lastAgentSession := ConversationBinding.fromAgent agent }
  match bound.dispatchState id with
  | none => .error "Delivery attempt superseded"
  | some state =>
    ensure (state = .queued) "Delivery already attempted or cancelled"
    return (bound.setDispatchState .attempting id).started now id

/-- When an implementation request arrived. -/
def delivered (result : DispatchResult) (now : Nat) : ExploreRound :=
  match result.id, result.state with
  | .implementation request _, .delivered =>
    { round with implementations := round.implementations.modify request fun record =>
        { record with sentAtMs := some now } }
  | _, _ => round

/-- Superseded callbacks and duplicate observers cannot overwrite newer dispatch
knowledge. -/
def finishDispatch (result : DispatchResult) (now : Nat) : ExploreRound :=
  match round.dispatchState result.id with
  | some state =>
    if (result.began ∧ state = .attempting) ∨ (¬result.began ∧ state = .queued)
    then (round.setDispatchState result.state result.id).delivered result now
    else round
  | none => round

/-- Every request that carried an answer, and the one the agent's turn took up. -/
def requestsWith (id : String) (request : Option String) : List String :=
  (round.turns.entries.filter fun entry => entry.2.request.carries id).map Prod.fst ++
    request.toList

/-- The round without its record of one request; the marks of its turn come out. -/
def forget (request : String) : List TurnMarks × ExploreRound :=
  ((round.marks.lookup request).toList, { round with
    turns := round.turns.erase request
    marks := round.marks.erase request
    exploration := { round.exploration with
      agentElapsedMs := round.exploration.agentElapsedMs.erase request }
    completion := round.completion.filter (·.request ≠ request) })

def forgetAll : List String → ExploreRound → List TurnMarks × ExploreRound
  | [], round => ([], round)
  | request :: requests, round =>
    let (marks, rest) := round.forget request
    let (more, rest) := forgetAll requests rest
    (marks ++ more, rest)

/-- The marks of the question an answer answered, which it applied. -/
def forgetApplied (answer : ReviewerAnswer) : List TurnMarks × ExploreRound :=
  match round.marks.lookup answer.inReplyTo with
  | some marks =>
    if marks.answer = some answer.id
    then ([marks], { round with marks := round.marks.erase answer.inReplyTo })
    else ([], round)
  | none => ([], round)

/-- Cancel the latest answer, unless implementation was already requested. -/
def cancelAnswer (id : String) : Except String (CancelledAnswer × ExploreRound) := do
  ensure round.implementations.isEmpty
    "Implementation was requested; answers can no longer be cancelled"
  let (cancelled, exploration) ← round.exploration.cancelAnswer id
  let kept := { round with exploration := exploration }
  let (marks, kept) := forgetAll (kept.requestsWith id cancelled.request) kept
  let (applied, kept) := kept.forgetApplied cancelled.answer
  return ({ cancelled with marks := marks ++ applied }, kept)

/-- Cancel answers, latest first, until `id` is. -/
def cancelUntil (id : String) :
    Nat → ExploreRound → Except String (List CancelledAnswer × ExploreRound)
  | 0, round => .ok ([], round)
  | answers + 1, round =>
    match round.exploration.answers.getLast? with
    | none => .ok ([], round)
    | some latest => do
      let (cancelled, kept) ← round.cancelAnswer latest.id
      if latest.id = id then return ([cancelled], kept)
      else
        let (more, kept) ← cancelUntil id answers kept
        return (cancelled :: more, kept)

/-- Cancel the answer `id` and every answer after it, latest first. Each cancellation
takes one answer, so there are at most as many as answers. -/
def cancelAnswersFrom (id : String) : Except String (List CancelledAnswer × ExploreRound) := do
  ensure (round.exploration.answers.any (·.id = id)) "This answer is not in the round"
  cancelUntil id round.exploration.answers.length round

/-! What the session does with a saved round. -/

def mergeDiverged (diverged more : List String) : List String :=
  more.foldl (fun kept path => if path ∈ kept then kept else kept ++ [path]) diverged

/-- The round completes with the first conclusion it accepts. -/
def complete (update : InterviewUpdate) : ExploreRound :=
  if update.conclusion.isSome ∧ round.completion.isNone then
    let baseline := round.exploration.comparison.checkpoint.checkpoint
    { round with completion := some ⟨update.request, baseline⟩ }
  else round

def submitted (world : World) (now : Nat) (diverged : List String) (update : InterviewUpdate) :
    Except String (Bool × ExploreRound) := do
  let (applied, kept) ← round.submit world now update
  if applied then
    let kept := { kept with turns := kept.turns.modify update.request fun turn =>
        { turn with diverged := mergeDiverged turn.diverged diverged } }
    return (true, kept.complete update)
  else return (false, kept)

end ExploreRound

/-- The largest revision of a saved round. -/
def lastRevision : Nat := 2 ^ 64 - 1

/-- Change a saved round, writing it with the next revision only when it changed; a
refused change leaves the saved round as it was. -/
def updateRound (change : ExploreRound → Except String ExploreRound) (round : ExploreRound) :
    Except String ExploreRound := do
  let changed ← change round
  if changed = round then return round
  else
    ensure (changed.revision < lastRevision) "revision exhausted"
    return { changed with revision := changed.revision + 1 }

end ProgressiveReviewer.Explore
