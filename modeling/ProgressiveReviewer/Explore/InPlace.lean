import ProgressiveReviewer.Explore.Recovery
import ProgressiveReviewer.Library.Untouched

/-! The changes of a round as they write it, step by step: what the round holds when one of
them is refused (`review-explore/src/durable.rs`, `cancel.rs`, `revision.rs`). Changes that
the source makes on a candidate, or only after their last check, are their results on a copy. -/

namespace ProgressiveReviewer.Explore

open Library Hunks Marks

namespace Exploration.InPlace

/-- Replace the open question with a new version of it. -/
def revise (world : World) (revision : QuestionRevision) (fresh : String) :
    EStateM String Exploration Bool := do
  let exploration ← get
  found (ensure (revision.instanceId = exploration.instanceId) "This Explore round is no longer active")
  found (ensure (revision.checkpoint = exploration.comparison.checkpoint)
    "Revision checkpoint does not match")
  match exploration.conversation.find? fun turn => turn.update.next = some revision.question with
  | some previous =>
    found (ensure (previous.revision = some revision.revision ∧
        previous.update.glossary = revision.glossary)
      "An accepted revision cannot be replaced; retry the identical payload")
    return false
  | none =>
    found (ensure (exploration.outstanding.isNone ∧ exploration.retry.isNone)
      "The reviewer's answer is on its way: ask the new version in your next Explore turn")
    match exploration.conversation.getLast?.bind fun turn =>
        turn.update.next.map fun question => (turn, question) with
    | none => throw "The round has no open question to revise"
    | some (previous, current) =>
      let (id, version) := (current.id, current.version)
      found (ensure (revision.question.id = id ∧ version < revision.question.version)
        s!"Revise the open question {id}: keep its ID and give a version above {version}")
      found (ensure (!isBlank revision.revision.reason)
        "Say in reason what changed in the question and why")
      let update := revisedUpdate previous.update revision fresh
      found (exploration.validate world { update with reviewed := [], reopened := [] })
      modify fun exploration => { exploration with
        conversation := exploration.conversation ++ [⟨previous.answer, update, some revision.revision⟩] }
      modify fun exploration => exploration.absorb update none
      return true

/-- Forget the latest answer and the agent's turn after it, and tell the agent with its
next request. -/
def cancelAnswer (id : String) : EStateM String Exploration CancelledAnswer := do
  let exploration ← get
  match exploration.answers.getLast?.filter fun answer => answer.id = id with
  | none => throw "Only the latest answer can be cancelled"
  | some answer =>
    let pending := exploration.pendingWith id
    let answered := exploration.tookUp id
    modify fun exploration => exploration.withoutAnswer id
    if answered.isSome then modify fun exploration => exploration.withoutTurns id
    modify fun exploration => { exploration with
      cancelled := ((pending.map (·.cancelled)).getD []) ++ exploration.cancelled ++ [id] }
    return ⟨answer, answered.or (pending.map (·.request)), []⟩

end Exploration.InPlace

namespace ExploreRound.InPlace

/-- The candidate takes the round's place when it was accepted. -/
def submit (world : World) (now : Nat) (update : InterviewUpdate) : EStateM String ExploreRound Bool := do
  let round ← get
  let (applied, candidate) ← found (round.exploration.submit world update)
  if applied then
    let elapsed := match (round.turns.lookup update.request).bind (·.startedAtMs) with
      | some started => candidate.agentElapsedMs.insert update.request (now - started)
      | none => candidate.agentElapsedMs
    modify fun round => { round with exploration := { candidate with agentElapsedMs := elapsed } }
  return applied

/-- Send a request that the round holds again, under a new attempt. -/
def resend (request : TurnRequest) (previous : InterviewDelivery) (attempt : String) :
    EStateM String ExploreRound Bool := do
  let round ← get
  found (ensure (round.exploration.retry.any (·.request = request.request) ∧
      round.exploration.outstanding.all (·.request = request.request))
    "This interrupted turn has been superseded; restore the latest question")
  found (ensure (previous.request.answer = request.answer ∧
      previous.request.checkpoint = request.checkpoint)
    "This turn identity already has different content")
  found (ensure (¬round.exploration.conversation.any (·.update.request = request.request))
    "The response is already saved; restore it instead of sending again")
  modify fun round => { round with
    turns := round.turns.insert request.request
      { previous with attempt := attempt, state := .queued, request := request, startedAtMs := none } }
  modify fun round => { round with
    exploration := { round.exploration with outstanding := some request, retry := some request } }
  return false

/-- The round has told of its cancelled answers. -/
def clearCancelled (round : ExploreRound) : ExploreRound :=
  { round with exploration := { round.exploration with cancelled := [] } }

/-- A new request takes its answer into the round and goes on its way. -/
def take (expected : Option ReviewerAnswer) (request : TurnRequest) (attempt : String) :
    EStateM String ExploreRound Bool := do
  let round ← get
  let answers ← found (round.admitAnswer expected request)
  modify fun round => { round with
    exploration := { round.exploration with
      answers := answers
      outstanding := some request
      retry := some request }
    turns := round.turns.insert request.request ⟨attempt, request, .queued, none, []⟩ }
  return true

def post (request : TurnRequest) (fresh : FreshIds) (attempt : String) :
    EStateM String ExploreRound Bool := do
  let round ← get
  found (ensure (request.instanceId = round.exploration.instanceId ∧
      request.checkpoint = round.exploration.comparison.checkpoint)
    "This answer belongs to another Explore round")
  match round.turns.lookup request.request with
  | some previous => resend request previous attempt
  | none =>
    let (validated, _) ← found (round.exploration.request (request.answer.map inputOf)
      (request.answer.bind (·.question)) fresh)
    found (ensure (validated.cancelled = request.cancelled)
      "This turn does not name the answers cancelled since the last one")
    -- The source clears the list here, before it compares the answer.
    modify clearCancelled
    take validated.answer request attempt

def authorize (request : ImplementationRequest) (attempt : String) :
    EStateM String ExploreRound Bool := do
  let round ← get
  found (ensure round.completion.isSome "Explore has not accepted a conclusion")
  found (ensure (request.instanceId = round.exploration.instanceId ∧
      round.exploration.conclusionRequest = some request.conclusion)
    "This conclusion is no longer current")
  found (validateImplementation round.exploration request.text)
  match round.implementations.lookup request.delivery with
  | some previous =>
    found (ensure (previous.request = request) "Implementation authorization cannot change")
    found (ensure previous.state.mayRetry "Implementation delivery is already sent or uncertain")
    modify fun round => { round with
      implementations := round.implementations.insert request.delivery
        { previous with attempt := attempt, state := .queued } }
    return false
  | none =>
    modify fun round => { round with
      implementations := round.implementations.insert request.delivery
        ⟨round.revision + 1, attempt, request, .queued, none⟩ }
    return true

/-- The attempt of a delivery starts, while it is the latest one and waits. -/
def startAttempt (id : DispatchId) (now : Nat) : EStateM String ExploreRound Unit := do
  let round ← get
  match round.dispatchState id with
  | none => throw "Delivery attempt superseded"
  | some state =>
    found (ensure (state = .queued) "Delivery already attempted or cancelled")
    modify fun round => round.setDispatchState .attempting id
    modify fun round => round.started now id

/-- The round's agent is the one of a native conversation. -/
def bindAgent (agent : Agent) (round : ExploreRound) : ExploreRound :=
  { round with lastAgentSession := ConversationBinding.fromAgent agent }

def beginDispatch (id : DispatchId) (agent : Agent) (now : Nat) : EStateM String ExploreRound Unit := do
  let round ← get
  found (round.validateDispatch id)
  -- The source binds the agent here, before it looks at the delivery.
  modify (bindAgent agent)
  startAttempt id now

def finishDispatch (result : DispatchResult) (now : Nat) : EStateM String ExploreRound Unit :=
  modify fun round => round.finishDispatch result now

/-- Cancel the latest answer, with every delivery that carried it. -/
def cancelAnswer (id : String) : EStateM String ExploreRound CancelledAnswer := do
  let round ← get
  found (ensure round.implementations.isEmpty
    "Implementation was requested; answers can no longer be cancelled")
  let cancelled ← onPart ExploreRound.exploration withExploration (Exploration.InPlace.cancelAnswer id)
  let kept ← get
  let (marks, kept) := forgetAll (kept.requestsWith id cancelled.request) kept
  let (applied, kept) := kept.forgetApplied cancelled.answer
  set kept
  return { cancelled with marks := marks ++ applied }

/-- Cancel answers, latest first, until `id` is. -/
def cancelUntil (id : String) : Nat → EStateM String ExploreRound (List CancelledAnswer)
  | 0 => return []
  | answers + 1 => do
    let round ← get
    match round.exploration.answers.getLast? with
    | none => return []
    | some latest =>
      let cancelled ← cancelAnswer latest.id
      if latest.id = id then return [cancelled]
      else return cancelled :: (← cancelUntil id answers)

def cancelAnswersFrom (id : String) : EStateM String ExploreRound (List CancelledAnswer) := do
  let round ← get
  found (ensure (round.exploration.answers.any (·.id = id)) "This answer is not in the round")
  cancelUntil id round.exploration.answers.length

end ExploreRound.InPlace

/-- The changes that can be refused. -/
inductive Change where
  | submit (world : World) (now : Nat) (update : InterviewUpdate)
  | post (request : TurnRequest) (fresh : FreshIds) (attempt : String)
  | authorize (request : ImplementationRequest) (attempt : String)
  | beginDispatch (id : DispatchId) (agent : Agent) (now : Nat)
  | finishDispatch (result : DispatchResult) (now : Nat)
  | cancelAnswersFrom (id : String)
  | revise (world : World) (revision : QuestionRevision) (fresh : String)

open ExploreRound in
/-- One change of a round, in place. -/
def Change.run : Change → EStateM String ExploreRound Unit
  | .submit world now update => do _ ← InPlace.submit world now update
  | .post request fresh attempt => do _ ← InPlace.post request fresh attempt
  | .authorize request attempt => do _ ← InPlace.authorize request attempt
  | .beginDispatch id agent now => InPlace.beginDispatch id agent now
  | .finishDispatch result now => InPlace.finishDispatch result now
  | .cancelAnswersFrom id => do _ ← InPlace.cancelAnswersFrom id
  | .revise world revision fresh => do
    _ ← onPart ExploreRound.exploration withExploration
      (Exploration.InPlace.revise world revision fresh)

/-- The round that the operation of a change gives. -/
def Change.result (round : ExploreRound) : Change → Except String ExploreRound
  | .submit world now update => (round.submit world now update).map Prod.snd
  | .post request fresh attempt => (round.post request fresh attempt).map Prod.snd
  | .authorize request attempt => (round.authorize request attempt).map Prod.snd
  | .beginDispatch id agent now => round.beginDispatch id agent now
  | .finishDispatch result now => .ok (round.finishDispatch result now)
  | .cancelAnswersFrom id => (round.cancelAnswersFrom id).map Prod.snd
  | .revise world revision fresh =>
    (round.exploration.revise world revision fresh).map fun result => round.withExploration result.2

end ProgressiveReviewer.Explore
