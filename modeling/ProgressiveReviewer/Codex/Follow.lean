import ProgressiveReviewer.Codex.Rpc

/-! The daemon's messages, as far as following a session needs them
(`codex-daemon/src/wire.rs`). -/

namespace ProgressiveReviewer.Codex

open Library

/-- A session's status, as the daemon reports it. -/
inductive SessionStatus where
  /-- The daemon holds the session no more. -/
  | notLoaded
  | idle
  /-- A turn runs, or waits for an approval. -/
  | active
  | systemError
  deriving DecidableEq, Repr

/-- How a turn ended. -/
inductive TurnEnd where
  | completed
  | interrupted
  | failed
  deriving DecidableEq, Repr

/-- What a follow hears of its session, in the order the daemon said it. -/
inductive SessionEvent where
  /-- The client joined the session, first or again. -/
  | joined (status : Option SessionStatus)
  /-- The daemon refused the first join, in its words: the follow ends. -/
  | refused (error : String)
  /-- The client lost the daemon, could not reach it, or was refused a join again. -/
  | lost (error : String)
  | turnStarted (turn : String)
  /-- The prompt a turn started on, as the session took it. -/
  | prompt (turn text : String)
  | turnEnded (turn : String) (ending : TurnEnd)
  | status (status : SessionStatus)
  /-- Another client joined the session. -/
  | resumed
  deriving DecidableEq, Repr

namespace Wire

/-- The ID of the client's `initialize` request. -/
def initializeId : Nat := 1

/-- The ID of the client's `thread/resume` request, which joins the session. -/
def joinId : Nat := 2

/-- What the daemon says of a session. -/
inductive Notice where
  /-- What a follow reports as the daemon said it. -/
  | event (event : SessionEvent)
  /-- The session's goal as it is when a client joins the session: the daemon sends it to the
  session's clients on every join. -/
  | goalSnapshot
  deriving DecidableEq, Repr

/-- A message from the daemon. -/
inductive Incoming where
  /-- The answer to the client's request `id`: the session's status for a join, or the
  daemon's error. -/
  | answer (id : Nat) (result : Except String (Option SessionStatus))
  | notice (session : String) (notice : Notice)
  | other

def textIn (name : String) (value : Json) : Option String := (get name value).bind Json.asText

def statusOf (value : Json) : Option SessionStatus :=
  match textIn "type" value with
  | some "notLoaded" => some .notLoaded
  | some "idle" => some .idle
  | some "systemError" => some .systemError
  | some "active" => some .active
  | _ => none

/-- A member that may be missing or null, and reads as `read` says where it is there. -/
def optional {α : Type} (read : Json → Option α) : Option Json → Option (Option α)
  | none | some .null => some none
  | some value => (read value).map some

/-- The status in the result of a join, when the client reads it. -/
def joinStatus (result : Json) : Option SessionStatus :=
  match get "thread" result with
  | none | some .null => none
  | some thread => (get "status" thread).bind statusOf

/-- The text of an input that is text, and none of another's. -/
def inputText (input : Json) : Option (Option String) :=
  match textIn "type" input with
  | some "text" => (textIn "text" input).map some
  | some _ => some none
  | none => none

/-- The lines that the inputs of a user's message give. -/
def promptOf (item : Json) : Option String :=
  match textIn "type" item, get "content" item with
  | some "userMessage", some (.array content) =>
    (content.mapM inputText).map fun texts => "\n".intercalate (texts.filterMap id)
  | _, _ => none

def notice (method : String) (params : Json) : Option Incoming :=
  let said (notice : Notice) : Option Incoming :=
    (textIn "threadId" params).map fun session => .notice session notice
  match method with
  | "turn/started" => do
    let turn ← get "turn" params
    let id ← textIn "id" turn
    let _ ← textIn "status" turn
    said (.event (.turnStarted id))
  | "turn/completed" => do
    let turn ← get "turn" params
    let id ← textIn "id" turn
    let ending := match ← textIn "status" turn with
      | "completed" => TurnEnd.completed
      | "interrupted" => .interrupted
      | _ => .failed
    said (.event (.turnEnded id ending))
  | "item/completed" => do
    let text ← (get "item" params).bind promptOf
    let turn ← textIn "turnId" params
    said (.event (.prompt turn text))
  | "thread/status/changed" => do
    let status ← (get "status" params).bind statusOf
    said (.event (.status status))
  | "thread/closed" => said (.event (.status .notLoaded))
  | "thread/goal/cleared" | "thread/goal/updated" =>
    -- A turn that changed the goal is named: no client joined.
    match optional Json.asText (get "turnId" params) with
    | some none => said .goalSnapshot
    | _ => none
  | _ => none

/-- The daemon's words, when the answer is a refusal. -/
def refusal : Json → Option String
  | .object members => (Json.required ["message"] members).bind Json.asText
  | _ => none

/-- The message of a text frame, when its fields read as the client expects them. -/
def message (members : List (String × Json)) : Option Incoming := do
  let id ← Json.field ["id"] members
  let method ← optional Json.asText (← Json.field ["method"] members)
  let params ← Json.field ["params"] members
  let result ← Json.field ["result"] members
  let error ← optional refusal (← Json.field ["error"] members)
  match id.bind (Json.asBelow 18446744073709551616), method with
  | some id, none =>
    return .answer id (match error with
      | some words => .error words
      | none => .ok (result.bind joinStatus))
  | none, some method => return (notice method (params.getD .null)).getD .other
  | _, _ => return .other

/-- Reads one text frame from the daemon. -/
def read : Option Json → Incoming
  | some (.object members) => (message members).getD .other
  | _ => .other

end Wire

end ProgressiveReviewer.Codex

/-! A client that joined a session of the daemon, and what it reports of it
(`codex-daemon/src/follow.rs`). -/

namespace ProgressiveReviewer.Codex

open Library

/-- Why a connection to the daemon ended. -/
inductive Ended where
  | refused (error : String)
  | lost (error : String)
  deriving DecidableEq, Repr

/-- Where a follow stands across its connections to the daemon. -/
structure Progress where
  /-- The client joined the session once. -/
  joined : Bool
  /-- The client reported the loss of the daemon and has not joined since. -/
  lost : Bool
  deriving DecidableEq, Repr

/-- What a follow does once a connection ended. -/
inductive Next where
  /-- Reports the event, if any, and connects again after the retry delay. -/
  | retry (event : Option SessionEvent)
  /-- Reports the event and stops. -/
  | stop (event : SessionEvent)
  deriving DecidableEq, Repr

namespace Progress

def start : Progress := ⟨false, false⟩

def join : Progress := ⟨true, false⟩

variable (progress : Progress)

def lose (error : String) : Next × Progress :=
  (.retry (if progress.lost then none else some (.lost error)), { progress with lost := true })

/-- What follows the end of a connection: a refusal of the first join ends the follow, and any
other end is a loss of the daemon, reported once until the client joins again. -/
def ended (ended : Ended) : Next × Progress :=
  match ended with
  | .refused error =>
    if progress.joined then
      progress.lose ("the Codex daemon refused to join the session again: " ++ error)
    else (.stop (.refused error), progress)
  | .lost error => progress.lose error

end Progress

/-- What the client makes of what the daemon says once it asked to join a session. -/
structure Hearing where
  session : String
  /-- The goal snapshots still to come that the client's own join causes. -/
  ownSnapshots : Nat

namespace Hearing

/-- A session the client asked to join. -/
def joining (session : String) : Hearing := ⟨session, 1⟩

variable (hearing : Hearing)

/-- What a message says of the session, if anything. -/
def hear (incoming : Wire.Incoming) : Option SessionEvent × Hearing :=
  match incoming with
  | .answer id (.ok status) =>
    (if id = Wire.joinId then some (.joined status) else none, hearing)
  | .notice session notice =>
    if session = hearing.session then
      match notice with
      | .event event => (some event, hearing)
      | .goalSnapshot =>
        if 0 < hearing.ownSnapshots then
          (none, { hearing with ownSnapshots := hearing.ownSnapshots - 1 })
        else (some .resumed, hearing)
    else (none, hearing)
  | .answer _ (.error _) | .other => (none, hearing)

end Hearing

def lose (error : String) : Ended := .lost ("lost the Codex daemon: " ++ error)

/-- Whether the daemon's answer ends the connection. The join that the answer to `initialize`
calls for is sent here; where sending it fails, the connection is lost before any other frame. -/
def answer (incoming : Wire.Incoming) : Option Ended :=
  match incoming with
  | .answer id (.error error) =>
    if id = Wire.initializeId then some (lose error)
    else if id = Wire.joinId then some (.refused error)
    else none
  | _ => none

/-- Reports what the daemon says in `frames`, until the connection ends by itself or is lost after
them. -/
def follow (error : String) :
    List (Option Json) → Hearing → Progress → List SessionEvent × Progress × Ended
  | [], _, progress => ([], progress, lose error)
  | frame :: frames, hearing, progress =>
    let incoming := Wire.read frame
    match answer incoming with
    | some ended => ([], progress, ended)
    | none =>
      match hearing.hear incoming with
      | (some (.joined status), hearing) =>
        let (events, progress, ended) := follow error frames hearing .join
        (.joined status :: events, progress, ended)
      | (some event, hearing) =>
        let (events, progress, ended) := follow error frames hearing progress
        (event :: events, progress, ended)
      | (none, hearing) => follow error frames hearing progress

/-- One round of the follow. -/
inductive Attempt where
  | unreachable (error : String)
  /-- The frames that come over a connection, and the error of the read or the send that fails
  after them. -/
  | connected (frames : List (Option Json)) (error : String)

def Attempt.run (session : String) (progress : Progress) :
    Attempt → List SessionEvent × Progress × Ended
  | .unreachable error => ([], progress, .lost error)
  | .connected frames error => follow error frames (.joining session) progress

/-- What the follow reports over its rounds, until it is refused on the first join. A round goes
with whether the client was dropped before its end was handled: its socket is shut down then, and
no other round follows. -/
def run (session : String) : Progress → List (Attempt × Bool) → List SessionEvent
  | _, [] => []
  | progress, (attempt, dropped) :: rounds =>
    let (events, progress, ended) := attempt.run session progress
    match progress.ended ended with
    | (.stop event, _) => events ++ [event]
    | (.retry event, progress) =>
      if dropped then events else events ++ event.toList ++ run session progress rounds

end ProgressiveReviewer.Codex
