import ProgressiveReviewer.Prompts.Courier
import ProgressiveReviewer.Threads.Awaiting

/-! The worker that owns the review threads and tells the agent of the comments that wait for it
(`review-thread-service/src/state.rs`, `wakeup.rs`, `access.rs`, `notification.rs`). The worker's
drafts and prompts, which share no state with the wakeups, and the documents it shows are left
out. What the store and Herdr answer comes with each input. -/

namespace ProgressiveReviewer

open Library

namespace Prompts.PromptError

/-- How an outcome is told. -/
def text : PromptError → String
  | cancelled => "The reviewer prompt was cancelled"
  | delivery message => message
  | notStarted => "The agent did not start on the prompt. Look at the agent's pane, then Retry."
  | blocked left =>
    "Text left in the agent's input box joined the prompt, so the reviewer stopped both. " ++
      "Empty the agent's input box, then Retry. The text left there: " ++ left
  | unknown message => "Delivery outcome unknown: " ++ message

end Prompts.PromptError

namespace Wakeups

open Threads
open Prompts (PromptError)

abbrev Token := String

abbrev PaneId := String

/-- Which comments were asked to be told, and which were told. -/
structure Wakeup where
  requestedThrough : Nat := 0
  notifiedThrough : Nat := 0
  deriving DecidableEq, Repr

namespace Wakeup

variable (wakeup : Wakeup)

def needsPoll : Bool := wakeup.notifiedThrough < wakeup.requestedThrough

def interrupted : Wakeup := { wakeup with notifiedThrough := 0 }

def request (sequence : Nat) (retry : Bool) : Wakeup :=
  let wakeup := { wakeup with requestedThrough := sequence }
  if retry then wakeup.interrupted else wakeup

/-- The notification for the requested comments is on its way. -/
def sent : Wakeup := { wakeup with notifiedThrough := wakeup.requestedThrough }

def unchangedSince (sent : Nat) : Bool :=
  wakeup.requestedThrough = sent && wakeup.notifiedThrough = sent

def answered (_ : Wakeup) : Wakeup := ⟨0, 0⟩

end Wakeup

structure Agent where
  paneId : PaneId
  deriving DecidableEq, Repr

/-- Access to one review for an agent; what its identity check says comes from `Port`. -/
structure Access where
  token : Token
  reviewUnit : ReviewUnit
  agent : Agent
  deriving DecidableEq, Repr

/-- A scheduled notification. -/
structure Notification where
  retry : Bool := false
  deriving DecidableEq, Repr

/-- One notification handed to the courier. -/
structure Notice where
  id : Nat
  reviewUnit : ReviewUnit
  token : Token
  through : Nat
  deriving DecidableEq, Repr

structure WakeupFailure where
  through : Nat
  error : String
  deriving DecidableEq, Repr

inductive Event
  | wakeup (unit : ReviewUnit) (failure : Option WakeupFailure)
  | error (text : String)
  deriving DecidableEq, Repr

/-- What the worker was asked for and did. -/
inductive Record
  | posted (unit : ReviewUnit) (message : MessageId)
  | retried (unit : ReviewUnit) (thread : ThreadId)
  | reopened (unit : ReviewUnit) (thread : ThreadId)
  | granted (unit : ReviewUnit) (token : Token)
  | requested (unit : ReviewUnit) (token : Token) (through : Nat)
  | interrupted (unit : ReviewUnit) (token : Token)
  | sent (notice : Notice)
  /-- The outcome of a notification, and whether it took the wakeup away. -/
  | outcome (notice : Notice) (failure : Option PromptError) (removed : Bool)
  /-- An error took the wakeup away. -/
  | dropped (unit : ReviewUnit) (token : Token)
  | published (event : Event)
  deriving DecidableEq

/-- What Herdr answers in one step: the agent of the tab, whether it is the agent of an access,
what a new access is called and the agent an access has now. -/
structure Port where
  resolve : Except String (Option Agent)
  matchesAgent : Token → Except String Bool
  identified : Except String Token
  currentAgent : Token → Except String Agent

structure State where
  tab : String
  available : Bool
  stored : ReviewUnit → ReviewThreads
  books : SortedMap ReviewUnit ReviewThreads
  retried : SortedMap ReviewUnit (SortedMap ThreadId Nat)
  access : SortedMap Token Access
  notifications : SortedMap ReviewUnit Notification
  wakeups : SortedMap Token Wakeup
  /-- The notifications with the courier, and how many were sent. -/
  sending : List Notice
  sends : Nat
  /-- Latest first. -/
  history : List Record

namespace State

variable (state : State)

def record (record : Record) : State := { state with history := record :: state.history }

def publish (event : Event) : State := state.record (.published event)

def recipient (unit : ReviewUnit) : Recipient :=
  ⟨state.tab, (state.retried.lookup unit).getD .empty⟩

/-- Whether a pending comment of a review is for this tab's agent. -/
def waitsForAgent (unit : ReviewUnit) : Bool :=
  (state.books.lookup unit).any fun book => book.hasNewMessagesFor (state.recipient unit)

/-- The latest comment of a review that waits for this tab's agent. -/
def pendingSequence (unit : ReviewUnit) : Option Nat :=
  (state.books.lookup unit).bind fun book => book.pendingCommentSequenceFor (state.recipient unit)

def reportWakeup (unit : Option ReviewUnit) (failure : Option WakeupFailure) : State :=
  match unit, failure with
  | some unit, failure => state.publish (.wakeup unit failure)
  | none, some failure => state.publish (.error failure.error)
  | none, none => state

/-- The wakeup cannot reach the agent: say why, and which comments wait. -/
def undelivered (unit : Option ReviewUnit) (error : String) : State :=
  match unit.bind state.pendingSequence with
  | some through => state.reportWakeup unit (some ⟨through, error⟩)
  | none => state.publish (.error error)

def report (result : Except String Unit × State) : State :=
  match result with
  | (.ok _, state) => state
  | (.error e, state) => state.publish (.error e)

def load (unit : ReviewUnit) : State :=
  { state with books := state.books.insert unit (state.stored unit) }

/-- Change a stored document; a change that fails leaves it. -/
def update {α : Type} (unit : ReviewUnit) (saved : Except String Unit)
    (change : ReviewThreads → EStateM.Result String ReviewThreads α) : Except String α × State :=
  match saved, change (state.stored unit) with
  | .error e, _ | .ok _, .error e _ => (.error e, state)
  | .ok _, .ok result book => (.ok result, { state with
      stored := Function.update state.stored unit book
      books := state.books.insert book.reviewUnit book })

def cancelWakeups (unit : ReviewUnit) : State :=
  { state with
    notifications := state.notifications.erase unit
    wakeups := state.wakeups.retain fun token _ =>
      (state.access.lookup token).any (·.reviewUnit ≠ unit) }

def schedule (unit : ReviewUnit) (retry : Bool) : Except String Unit × State :=
  if !state.books.contains unit then (.error "The review history is not loaded", state)
  else if !state.waitsForAgent unit then (.ok (), state)
  else if !state.available then
    (.error "The comment is saved, but the reviewer MCP server is unavailable", state)
  else
    let notification := (state.notifications.lookup unit).getD {}
    (.ok (), { state with
      notifications := state.notifications.insert unit ⟨notification.retry || retry⟩ })

/-- Bring the comments of a thread posted so far to this tab's agent. -/
def release (unit : ReviewUnit) (thread : ThreadId) : State :=
  match ((state.books.lookup unit).bind fun book => book.thread thread).bind
    ReviewThread.lastComment with
  | none => state
  | some comment =>
    let threads := (state.retried.lookup unit).getD .empty
    { state with retried := state.retried.insert unit (threads.insert thread comment.sequence) }

def resume (unit : ReviewUnit) : State :=
  if state.waitsForAgent unit then report (state.schedule unit false) else state

def refreshTarget : State := state.books.keys.foldl resume state

def requestWakeup (access : Access) (retry : Bool) : State :=
  match state.pendingSequence access.reviewUnit with
  | none => state
  | some sequence =>
    let wakeup := (state.wakeups.lookup access.token).getD {}
    { state with wakeups := state.wakeups.insert access.token (wakeup.request sequence retry)
      }.record (.requested access.reviewUnit access.token sequence)

/-- The first access of a review that the agent matches. -/
def granted (unit : ReviewUnit) (port : Port) : List Access → Except String (Option Access)
  | [] => .ok none
  | access :: rest =>
    if access.reviewUnit = unit then
      match port.matchesAgent access.token with
      | .error e => .error e
      | .ok true => .ok (some access)
      | .ok false => granted unit port rest
    else granted unit port rest

def grant (unit : ReviewUnit) (agent : Agent) (port : Port) : Except String Access × State :=
  match granted unit port state.access.values, port.identified with
  | .error e, _ | .ok none, .error e => (.error e, state)
  | .ok (some access), _ => (.ok access, state)
  | .ok none, .ok token =>
    let state := state.cancelWakeups unit
    (.ok ⟨token, unit, agent⟩, { state with
      access := (state.access.retain fun _ previous => previous.reviewUnit ≠ unit).insert token
        ⟨token, unit, agent⟩ }.record (.granted unit token))

def interruptWakeups (pane : PaneId) : State :=
  state.access.values.foldl (fun state access =>
    if access.agent.paneId = pane then
      { state with wakeups := state.wakeups.modify access.token Wakeup.interrupted }.record
        (.interrupted access.reviewUnit access.token)
    else state) state

/-- Whether an access of a pane has lost its wakeup and still has its agent. -/
def resumable (pane : PaneId) (port : Port) (access : Access) : Bool :=
  access.agent.paneId = pane && !state.wakeups.contains access.token &&
    (port.currentAgent access.token).isOk

def resumeAccess (pane : PaneId) (port : Port) : State :=
  (state.access.values.filter (state.resumable pane port)).foldl (·.requestWakeup · false) state

/-- The outcome of a notification. One that failed is not sent again unless a wakeup was requested
since. -/
def notified (notice : Notice) (result : Except PromptError Unit) : State :=
  match result with
  | .ok _ => state.record (.outcome notice none false)
  | .error e =>
    let removed := (state.wakeups.lookup notice.token).any (·.unchangedSince notice.through)
    ({ state with
        wakeups := if removed then state.wakeups.erase notice.token else state.wakeups }.record
      (.outcome notice (some e) removed)).reportWakeup
        ((state.access.lookup notice.token).map Access.reviewUnit) (some ⟨notice.through, e.text⟩)

def noAgent : String := "Focus an implementation agent to receive the saved comments"

def resolved (port : Port) : Except String Agent :=
  match port.resolve with
  | .error e => .error e
  | .ok none => .error noAgent
  | .ok (some agent) => .ok agent

def prepareNotification (unit : ReviewUnit) (retry : Bool) (port : Port) :
    Except String Unit × State :=
  if !state.waitsForAgent unit then (.ok (), state.cancelWakeups unit)
  else
    match resolved port with
    | .error e => (.error e, state)
    | .ok agent =>
      match state.grant unit agent port with
      | (.error e, state) => (.error e, state)
      | (.ok access, state) =>
        (.ok (), { state with notifications := state.notifications.erase unit }.requestWakeup
          access retry)

/-- Send the notification of a wakeup. -/
def send (access : Access) (wakeup : Wakeup) : State :=
  let notice : Notice := ⟨state.sends, access.reviewUnit, access.token, wakeup.sent.notifiedThrough⟩
  ({ state with
      wakeups := state.wakeups.insert access.token wakeup.sent
      sending := notice :: state.sending
      sends := state.sends + 1 }.record (.sent notice)).reportWakeup (some access.reviewUnit) none

/-- An error takes the wakeup of an access away. -/
def drop (unit : ReviewUnit) (token : Token) : State :=
  { state with wakeups := state.wakeups.erase token }.record (.dropped unit token)

def notifyAgent (access : Access) (port : Port) : Except String Unit × State :=
  match resolved port, port.matchesAgent access.token, state.wakeups.lookup access.token with
  | .error e, _, _ | .ok _, .error e, _ => (.error e, state)
  | .ok _, .ok false, _ =>
    (state.drop access.reviewUnit access.token).schedule access.reviewUnit false
  | .ok _, .ok true, none => (.ok (), state)
  | .ok _, .ok true, some wakeup =>
    (.ok (), if wakeup.needsPoll then state.send access wakeup else state)

/-- Tell the agent of an access of the comments that wait, and report what kept it from it. -/
def notify (token : Token) (port : Port) : State :=
  match state.access.lookup token with
  | none => state
  | some access =>
    if !state.waitsForAgent access.reviewUnit then state
    else
      match state.notifyAgent access port with
      | (.ok _, state) => state
      | (.error e, state) =>
        (state.drop access.reviewUnit token).undelivered (some access.reviewUnit) e

/-- Prepare the scheduled notification of a review, and report what kept it. -/
def prepare (unit : ReviewUnit) (port : Port) : State :=
  match state.notifications.lookup unit with
  | none => state
  | some notification =>
    match state.prepareNotification unit notification.retry port with
    | (.ok _, state) => state
    | (.error e, state) =>
      { state with notifications := state.notifications.erase unit }.undelivered (some unit) e

end State

inductive ThreadCommand
  | load (unit : ReviewUnit)
  | post (unit : ReviewUnit) (post : Post)
  | setResolution (unit : ReviewUnit) (thread : ThreadId) (resolution : Resolution)
  | markRepliesRead (unit : ReviewUnit) (messages : List MessageId)
  | markRead (unit : ReviewUnit) (thread : ThreadId) (through : Nat)
  | retry (unit : ReviewUnit) (thread : ThreadId)

inductive Operation
  | explore
  | listThreads
  | getThread (thread : ThreadId)
  | getNewMessages
  | reply (post : Post)

inductive Response
  | threads (threads : List ReviewThread)
  | newMessages (threads : List ReviewThread)
  | posted (message : MessageId)

inductive Input
  | command (command : ThreadCommand) (saved : Except String Unit) (now : Nat)
  | activeAgentChanged
  | released (pane : PaneId)
  | detected (pane : PaneId) (port : Port)
  | request (access : Token) (operation : Operation) (port : Port) (saved : Except String Unit)
      (now : Nat)
  | notified (notice : Notice) (result : Except PromptError Unit)
  /-- Any input that does not concern the wakeups, or none for a while. -/
  | other

/-- A post of the review pane of a tab. -/
def fromTab (post : Post) (tab : String) : Post :=
  { post with message := { post.message with postedFromTab := some tab } }

namespace State

variable (state : State)

def postComment (unit : ReviewUnit) (post : Post) (saved : Except String Unit) (now : Nat) :
    State :=
  let post := fromTab post state.tab
  match state.update unit saved (·.postNew post now) with
  | (.error _, state) => state
  | (.ok new, state) =>
    match (if new then state.record (.posted unit post.message.id) else state).schedule unit
      false with
    | (.ok _, state) => state
    | (.error e, state) => state.undelivered (some unit) e

def setResolution (unit : ReviewUnit) (id : ThreadId) (resolution : Resolution)
    (saved : Except String Unit) : Except String Unit × State :=
  match state.update unit saved (·.setResolution id resolution) with
  | (.error e, state) => (.error e, state)
  | (.ok _, state) =>
    match resolution with
    | .open => ((state.record (.reopened unit id)).release unit id).schedule unit true
    | .resolved =>
      (.ok (), if state.waitsForAgent unit then state else state.cancelWakeups unit)

def retry (unit : ReviewUnit) (id : ThreadId) (saved : Except String Unit) :
    Except String Unit × State :=
  match saved with
  | .error e => (.error e, state)
  | .ok _ =>
    let state := state.load unit
    match (state.stored unit).retry id with
    | .error e => (.error e, state)
    | .ok _ => ((state.record (.retried unit id)).release unit id).schedule unit true

def threadCommand (saved : Except String Unit) (now : Nat) : ThreadCommand → State
  | .load unit =>
    match saved with
    | .error _ => state
    | .ok _ => (state.load unit).resume unit
  | .post unit post => state.postComment unit post saved now
  | .setResolution unit thread resolution =>
    report (state.setResolution unit thread resolution saved)
  | .markRepliesRead unit messages =>
    report (state.update unit saved fun book => .ok () (book.markRepliesRead messages))
  | .markRead unit thread through => report (state.update unit saved (·.markRead thread through))
  | .retry unit thread => report (state.retry unit thread saved)

/-- Serve a call of an agent, which names its access. -/
def request (token : Token) (operation : Operation) (port : Port) (saved : Except String Unit)
    (now : Nat) : Except String Response × State :=
  match state.access.lookup token, port.currentAgent token, saved with
  | none, _, _ => (.error
      "Unknown review access value; use the value in the latest reviewer wakeup", state)
  | some _, .error e, _ | some _, .ok _, .error e => (.error e, state)
  | some access, .ok _, .ok _ =>
    let state := state.load access.reviewUnit
    let book := state.stored access.reviewUnit
    match operation with
    | .explore => (.error "Explore requests belong to the interview owner", state)
    | .listThreads => (.ok (.threads book.threads), state)
    | .getThread id =>
      match book.thread id with
      | none => (.error "The review thread no longer exists", state)
      | some thread => (.ok (.threads [thread]), state)
    | .getNewMessages =>
      (.ok (.newMessages (book.newMessagesFor (state.recipient access.reviewUnit))), state)
    | .reply post =>
      match state.update access.reviewUnit saved (·.answer post now) with
      | (.error e, state) => (.error e, state)
      | (.ok id, state) =>
        (.ok (.posted id), if state.waitsForAgent access.reviewUnit then state
          else { state with wakeups := state.wakeups.modify access.token Wakeup.answered })

def input : Input → State
  | .command command saved now => state.threadCommand saved now command
  | .activeAgentChanged => state.refreshTarget
  | .released pane => (state.interruptWakeups pane).refreshTarget
  | .detected pane port => (state.resumeAccess pane port).refreshTarget
  | .request token operation port saved now =>
    (state.request token operation port saved now).2
  | .notified notice result =>
    { state with sending := state.sending.erase notice }.notified notice result
  | .other => state

/-- The accesses whose wakeups are to be told, by name. -/
def armed : List Token :=
  (state.wakeups.entries.filter fun entry => entry.2.needsPoll).map Prod.fst

end State

/-- Where the worker is in its loop: between two inputs, or how much of its poll is left. -/
inductive Phase
  | waiting
  | preparing (units : List ReviewUnit)
  | notifying (tokens : List Token)
  deriving DecidableEq

structure Worker where
  state : State
  phase : Phase

/-- One part of the worker's loop. A poll takes the scheduled notifications, then the armed
wakeups, each in any order. -/
inductive Action
  | input (input : Input) (order : List ReviewUnit)
  | prepare (port : Port)
  | arm (order : List Token)
  | notify (port : Port)
  | rest

namespace Worker

/-- A worker that starts over the documents the store holds. -/
def start (tab : String) (available : Bool) (stored : ReviewUnit → ReviewThreads) : Worker :=
  ⟨⟨tab, available, stored, .empty, .empty, .empty, .empty, .empty, [], 0, []⟩, .waiting⟩

def step (worker : Worker) : Action → Worker
  | .input input order => ⟨worker.state.input input, .preparing order⟩
  | .prepare port =>
    match worker.phase with
    | .preparing (unit :: units) => ⟨worker.state.prepare unit port, .preparing units⟩
    | _ => worker
  | .arm order => { worker with phase := .notifying order }
  | .notify port =>
    match worker.phase with
    | .notifying (token :: tokens) => ⟨worker.state.notify token port, .notifying tokens⟩
    | _ => worker
  | .rest => { worker with phase := .waiting }

/-- The reviews that a command names without having been shown them by the worker. -/
def Shown (state : State) : ThreadCommand → Prop
  | .load _ | .post _ _ => True
  | .setResolution unit _ _ | .markRepliesRead unit _ | .markRead unit _ _ | .retry unit _ =>
    state.books.contains unit = true

/-- What can come next: a command names a review the worker has shown, an outcome is that of a
notification with the courier, and a new access has a new name. -/
def MayInput (state : State) : Input → Prop
  | .command command _ _ => Shown state command
  | .notified notice _ => notice ∈ state.sending
  | _ => True

def May (worker : Worker) : Action → Prop
  | .input input order => worker.phase = .waiting ∧ MayInput worker.state input ∧
      order.Perm (worker.state.input input).notifications.keys
  | .prepare port => ∃ unit units, worker.phase = .preparing (unit :: units) ∧
      ∀ token, port.identified = .ok token → ∀ other, .granted other token ∉ worker.state.history
  | .arm order => worker.phase = .preparing [] ∧ order.Perm worker.state.armed
  | .notify _ => ∃ token tokens, worker.phase = .notifying (token :: tokens)
  | .rest => worker.phase = .notifying []

end Worker

end Wakeups

end ProgressiveReviewer
