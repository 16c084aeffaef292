import ProgressiveReviewer.Page.Round

/-! The status cards: what the page shows for every state that is not a question
(`review-explore-page/src/status.rs`). The notices of refused actions, which travel in the replies,
are left out. -/

namespace ProgressiveReviewer.Page

open Explore
open Implementation (ImplementationState)

inductive StatusKind where
  | progress
  | info
  | warn
  | danger
  | ok
  deriving DecidableEq, Repr

/-- How a reader is told of a card. -/
inductive StatusRole where
  | status
  | alert
  | note
  deriving DecidableEq, Repr

inductive ButtonTier where
  | primary
  | secondary
  deriving DecidableEq, Repr

structure CardTime where
  words : String
  ms : Nat
  deriving DecidableEq, Repr

structure Field where
  name : String
  value : String
  deriving DecidableEq, Repr

/-- An action of a card: a request the page sends. -/
structure StatusAction where
  method : String
  fields : List Field
  label : String
  tier : ButtonTier
  hint : Option String
  deriving DecidableEq, Repr

/-- One state that is not a question: the state first, then the next step. -/
structure StatusCard where
  kind : StatusKind
  id : String
  title : String
  role : StatusRole := .status
  time : Option CardTime := none
  reason : Option String := none
  since : Option CardTime := none
  /-- The reason is a verbatim error. -/
  code : Bool := false
  imperative : Option String := none
  next : Option String := none
  actions : List StatusAction := []
  deriving DecidableEq, Repr

/-- What an agent's turn carries of the reviewer's. -/
inductive Sent where
  | answer (number : Option Nat)
  | reply
  deriving DecidableEq, Repr

namespace Sent

def of (round : RoundSnapshot) : Option Sent :=
  round.stage.sent.map fun sent =>
    if sent.question.isSome then .answer round.sentNumber else .reply

def answersQuestion : Sent → Bool
  | .answer _ => true
  | .reply => false

def noun : Sent → String
  | .answer _ => "your answer"
  | .reply => "your reply"

def subject : Sent → String
  | .answer _ => "Your answer"
  | .reply => "Your reply"

def named : Sent → String
  | .answer (some number) => "your answer to question " ++ toString number
  | sent => sent.noun

end Sent

/-- What a Stop waiting stops. -/
inductive Stopped where
  | start (start : String)
  | turn (request : String) (sent : Option Sent)
  | finishing (request : String)
  deriving DecidableEq, Repr

namespace StatusAction

def stop (stopped : Stopped) : StatusAction :=
  let (hint, field) : String × Field := match stopped with
    | .turn request (some (.answer _)) =>
      ("Your answer stays; Retry sends it again.", ⟨"request", request⟩)
    | .turn request (some .reply) =>
      ("Your reply stays; Retry sends it again.", ⟨"request", request⟩)
    | .turn request none =>
      ("After Stop waiting, Retry sends the turn again.", ⟨"request", request⟩)
    | .finishing request =>
      ("Your answer goes to the agent, which starts the turn over.", ⟨"request", request⟩)
    | .start start => ("Stop waiting drops the round before it starts.", ⟨"start", start⟩)
  ⟨"stop", [field], "Stop waiting", .secondary, some hint⟩

def retry (request attempt : String) (tier : ButtonTier) (hint : Option String) : StatusAction :=
  ⟨"retry", [⟨"request", request⟩, ⟨"attempt", attempt⟩], "Retry", tier, hint⟩

end StatusAction

namespace StatusCard

def selectAgentThenRetry : String := "Select an agent in the review pane, then Retry."

def startFailure : String := "start-failure"

def startBlockId : String := "start-block"

/-- The card that says why no round can start. -/
def startBlock (cards : List StatusCard) : Option String :=
  (cards.map (·.id)).find? fun id => id = startBlockId

/-- Whether a card says the start cover's state. -/
def sayStart (cards : List StatusCard) : Bool :=
  cards.any fun card => card.id = startFailure || card.id = startBlockId

def earlier : StatusCard where
  kind := .info
  id := "earlier"
  title := "This is an earlier round"
  reason := some "Another review pane saved a newer round of this review."
  next := some "Reopen the review pane to see the newer round, or reset this one from the ⋯ menu to start over."
  role := .note

/-- The cards of the start cover: why the latest start failed, and that nothing is left to
review. -/
def start (round : RoundSnapshot) (failure : Option String) : List StatusCard :=
  let failed := failure.filter fun failure => round.startBlock.all (·.reason ≠ failure)
  (failed.map fun failure =>
      { kind := .danger, id := startFailure, title := "The round could not start"
        reason := some failure, code := true
        next := some "Fix what it says, then Start again.", role := .alert }).toList ++
    (round.startBlock.map fun _ =>
      { kind := .ok, id := startBlockId, title := "Every changed line is reviewed"
        next := some "Nothing is left to explore. Unmark lines or files in the review pane to start a round." }).toList

def starting (start : String) (startedAtMs : Option Nat) : StatusCard where
  kind := .progress
  id := "waiting"
  title := "Preparing the round"
  reason := some "The review tool captures the change; Jev marks the insignificant lines first when it is on."
  since := startedAtMs.map fun ms => ⟨"Sent", ms⟩
  actions := [.stop (.start start)]

def working (round : RoundSnapshot) (request : String) (sentAtMs : Option Nat)
    (sent : Option Sent) (offersActions : Bool) : StatusCard where
  kind := .progress
  id := "waiting"
  title := match sent with
    | some sent => "The agent is working on " ++ sent.named
    | none =>
      if round.design.isNone then "The agent is working on the design and its first question"
      else "The agent is working on its next turn"
  since := sentAtMs.map fun ms => ⟨"Sent", ms⟩
  next := some (if sent.any (·.answersQuestion) then
      "You can leave this tab; its title changes when the next question is ready."
    else "You can leave this tab; its title changes when the agent's turn is ready.")
  actions := if offersActions then [.stop (.turn request sent)] else []

/-- The agent finishes the turn that a fork started while the reviewer was thinking. -/
def finishing (request : String) (sinceMs : Nat) (offersActions : Bool) : StatusCard where
  kind := .progress
  id := "waiting"
  title := "The agent is finishing a turn it started while you were thinking"
  since := some ⟨"Started", sinceMs⟩
  next := some "You can leave this tab; its title changes when the next question is ready."
  actions := if offersActions then [.stop (.finishing request)] else []

def storage (failure : String) : StatusCard where
  kind := .danger
  id := "storage"
  title := "Explore cannot save rounds, so this page can do nothing"
  reason := some failure
  code := true
  next := some "Fix the problem, then close the review pane and open it again."
  role := .alert

/-- Retry of a turn in its latest attempt, with its next step, when there is one to send again. -/
def retry (card : StatusCard) (turn : Option (String × String)) (next : Option String)
    (tier : ButtonTier) (hint : Option String) : StatusCard :=
  match turn with
  | none => card
  | some (request, attempt) =>
    { card with
      next := next.or card.next
      actions := card.actions ++ [.retry request attempt tier hint] }

/-- The agent is not working on the turn the round waits for, if any. -/
def interrupted (any : Bool) (turn : Option (String × String)) (interruption : Interruption)
    (sent : Option Sent) : StatusCard :=
  let subject := (sent.map (·.subject)).getD "The turn's prompt"
  let what := (sent.map (·.noun)).getD "the turn's prompt"
  let id := "interruption"
  match interruption with
  | .failed failure =>
    retry { kind := .danger, id, title := subject ++ " did not reach the agent"
            reason := some failure, role := .alert }
      turn (some selectAgentThenRetry) .primary
      (if sent.any (·.answersQuestion) then some "Your answer and its marks are kept." else none)
  | .notStarted =>
    retry { kind := .warn, id, title := "The agent did not start on " ++ what
            reason := some "Its prompt may still wait in the agent's prompt box.", role := .alert }
      turn (some "Look at the agent's pane, then Retry: it sends the same turn again.") .primary none
  | .uncertain =>
    retry { kind := .warn, id, title := "The agent may or may not have " ++ what
            reason := some "The review pane was reopened while it sent the prompt."
            imperative := some "Check the agent's pane before you retry." }
      turn none .secondary (some "Sends the same turn again, which could duplicate it.")
  | .stopped =>
    if !any then
      { kind := .info, id, title := "The round has no turn to send again"
        next := some "Reset the round from the ⋯ menu, then start a new one." }
    else
      retry { kind := .info, id, title := "The turn is paused"
              reason := some "You stopped waiting, or the review pane was reopened before the prompt went out." }
        turn (some (match sent with
          | some (.answer _) => "Retry sends it again, with your answer."
          | some .reply => "Retry sends it again, with your reply."
          | none => "Retry sends it again.")) .primary none

/-- Where a past round stood when it was last saved. -/
def stopped (any : Bool) (interruption : Interruption) (sent : Option Sent) : StatusCard :=
  let subject := (sent.map (·.subject)).getD "The turn's prompt"
  let what := (sent.map (·.noun)).getD "the turn's prompt"
  let id := "stopped"
  let card : StatusCard :=
    if !any then { kind := .info, id, title := "The round had no turn to answer" }
    else match interruption with
      | .failed failure =>
        { kind := .danger, id, title := subject ++ " did not reach the agent", reason := some failure }
      | .notStarted =>
        { kind := .warn, id
          title := "The agent had not started on " ++ what ++ " when the round was saved" }
      | .uncertain =>
        { kind := .warn, id, title := "The round was sending " ++ what ++ " when it was saved"
          reason := some "Whether the agent received it is unknown." }
      | .stopped =>
        { kind := .info, id, title := "The agent had not answered when the round was saved" }
  { card with
    next := some "A round still running in another review pane moves on there; this page follows it."
    role := .note }

/-- The card of the agent's turn the round waits for, with the action that fits. -/
def ofTurn (round : RoundSnapshot) (offersActions : Bool) : Option StatusCard :=
  let sent := Sent.of round
  match round.stage with
  | .agentWorking request _ (some sinceMs) _ => some (finishing request sinceMs offersActions)
  | .agentWorking request sentAtMs none _ =>
    some (working round request sentAtMs sent offersActions)
  | .interrupted request attempt interruption _ =>
    if offersActions then
      some (interrupted request.isSome (do return (← request, ← attempt)) interruption sent)
    else if round.past then some (stopped request.isSome interruption sent)
    else none
  | _ => none

/-- The cards of a stage that is not a question. -/
def ofStage (round : RoundSnapshot) (offersActions : Bool) : List StatusCard :=
  match round.stage with
  | .noRound _ => start round none
  | .startFailed failure _ => start round (some failure)
  | .starting start startedAtMs => [starting start startedAtMs]
  | .agentWorking .. | .interrupted .. =>
    if round.stage.sent.isSome && (offersActions || round.past) then []
    else (ofTurn round offersActions).toList
  | .storageFailed failure => [storage failure]
  | .question .. | .conclusion .. => []

/-- The cards above the stage: that the round is an earlier one, then the stage's own. -/
def aboveStage (round : RoundSnapshot) (offersActions : Bool) : List StatusCard :=
  (if !offersActions && !round.past then [earlier] else []) ++ ofStage round offersActions

/-- The card of the conclusion's latest implementation request. -/
def implementation (implementation : PageImplementation) (request : String)
    (offersActions offersImplement postsReview : Bool) : StatusCard :=
  let id := "implementation"
  let what := if postsReview then "review request" else "implementation request"
  let delivery : Field := ⟨"delivery", implementation.delivery⟩
  let resend (label : String) : StatusAction :=
    ⟨"resend-implementation",
      [⟨"conclusion", request⟩, delivery, ⟨"attempt", implementation.attempt⟩], label, .primary, none⟩
  match implementation.state with
  | .sending =>
    { kind := .progress, id, title := "Sending the " ++ what ++ " to the agent…"
      actions := if offersActions then
          [⟨"cancel-implementation", [delivery],
            if postsReview then "Cancel the review request" else "Cancel the implementation request",
            .secondary, some "Cancel stops the request if it has not reached the agent yet."⟩]
        else [] }
  | .sent =>
    { kind := .ok, id, title := "The agent received the " ++ what
      time := implementation.sentAtMs.map fun ms => ⟨"Sent at", ms⟩
      reason := some (if postsReview then "It posts the review; this round is done."
        else "It implements the list; this round is done.") }
  | .notStarted =>
    { kind := .warn, id, title := "The agent did not start on the " ++ what
      reason := some "The list may still wait in the agent's prompt box.", role := .alert
      next := if offersActions then
          some "Look at the agent's pane, then Retry: it sends the same request again."
        else none
      actions := if offersActions then [resend "Retry"] else [] }
  | .paused =>
    { kind := .info, id, title := "The request was never sent"
      reason := some "The pane closed before it went out. The list you authorized is saved."
      actions := if offersImplement then [resend "Send the saved request"] else [] }
  | .unknown =>
    { kind := .warn, id, title := "The agent may or may not have the request"
      reason := some "The review pane was reopened while it sent the request."
      imperative := some "Check the agent's pane first."
      next := if offersImplement then some "Send again only if it never arrived." else none
      actions := if offersImplement then
          [⟨"implement", [⟨"conclusion", request⟩, ⟨"replaces", implementation.delivery⟩,
            ⟨"text", implementation.text⟩], "Send a new request anyway", .secondary, none⟩]
        else [] }
  | .notSent reason =>
    { kind := .danger, id, title := "The " ++ what ++ " could not be sent"
      reason := some reason, code := true, role := .alert
      next := if offersImplement then
          some (if postsReview then "Select an agent in the review pane, then Post review again."
            else "Select an agent in the review pane, then Implement again.")
        else none }
  | .cancelled =>
    { kind := .info, id, title := "The " ++ what ++ " was cancelled before it was sent" }

/-- The agent did not get the reviewer's waiting messages in the conversation of a round. -/
def undeliveredMessages (error round : String) : StatusCard where
  kind := .danger
  id := "conversation-delivery"
  title := "Your message did not reach the agent"
  reason := some error
  code := true
  next := some selectAgentThenRetry
  role := .alert
  actions := [⟨"retry-messages", [⟨"round", round⟩], "Retry", .primary,
    some "Wakes the agent again for your waiting messages."⟩]

end StatusCard

end ProgressiveReviewer.Page
