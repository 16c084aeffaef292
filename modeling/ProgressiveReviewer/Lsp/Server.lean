import ProgressiveReviewer.Lsp.Session
import ProgressiveReviewer.Library.Runs

/-! The thread of one language server (`review-lsp/src/server.rs`): its queue, its session and
what it tells the reviewer, in every order of commands, messages and deadlines. -/

namespace ProgressiveReviewer.Lsp

open Library

inductive Command where
  | openDocument (path : Path)
  | request (operation : Operation) (query : Query)
  | filesChanged (changes : List FileChange)
  | restart
  | shutdown
  deriving DecidableEq, Repr

namespace Command

def query : Command → Option Query
  | request _ query => some query
  | _ => none

end Command

structure Server where
  project : Project
  session : Option Session
  startup : Option ServerStartup
  pending : List Command
  /-- The documents to reopen when the server restarts, in order. -/
  openDocuments : List Path
  stopping : Bool

/-- A server with what it asked, wrote and told so far, and the requests it was given. -/
structure Host where
  server : Server
  isRunning : Bool
  asked : Nat
  sent : List Sent
  events : List Event
  queued : List Query

def Host.new (project : Project) : Host where
  server := ⟨project, none, none, [], [], false⟩
  isRunning := true
  asked := 0
  sent := []
  events := []
  queued := []

namespace Host

variable {Value : Type} (outside : Outside Value) (host : Host)

def isReady : Bool := host.server.session.any Session.isReady

def tell (event : Event) : Host := { host with events := host.events ++ [event] }

def fail (toastId : Option ToastId) (snapshotId : Option String) (message : String) : Host :=
  host.tell (.failed toastId snapshotId message)

def failQuery (message : String) (query : Query) : Host :=
  host.fail (some query.toastId) (some query.snapshotId) message

/-- The startup, the active query and the queued requests fail; whether there was any. -/
def failRequests (message : String) : Bool × Host :=
  let queries := (host.server.session.bind Session.activeQuery).toList ++
    host.server.pending.filterMap Command.query
  let startup := host.server.startup
  let host := { host with server.startup := none }
  let host := match startup with
    | some startup => host.fail (some startup.id) none message
    | none => host
  (startup.isSome || !queries.isEmpty, queries.foldl (fun host => host.failQuery message) host)

def failSession (message : String) : Host :=
  if host.server.stopping then { host with server.session := none }
  else
    let (failedRequest, failing) := host.failRequests message
    let failing := if !failedRequest && (host.server.session.isSome || !host.server.pending.isEmpty)
      then failing.fail none none message else failing
    { failing with server.session := none, server.pending := [] }

/-- The session's end of the scene. -/
def scene (session : Session) : Scene := ⟨session, host.asked, host.sent⟩

def after (scene : Scene) : Host :=
  { host with server.session := some scene.session, asked := scene.asked, sent := scene.sent }

/-- Initialize a session with the server that was spawned. -/
def initializeSpawned (startup : ServerStartup) (usesDirenv : Bool) (now : Instant) :
    Host × Option String :=
  let session : Session := ⟨host.server.project.server, usesDirenv, startup, 1, .utf16, [], [],
    .stopped, []⟩
  match SessionWork.initializeSession outside host.server.project now (host.scene session) with
  | .ok () scene => (host.after scene, none)
  | .error error scene =>
    ({ host with asked := scene.asked + 1 }, some (outside.startupFailure scene.asked error))

/-- Announce a startup, and start a session for it. -/
def startSession (now : Instant) : Host × Option String :=
  let startup : ServerStartup := ⟨outside.toast host.asked, host.server.project.server.name⟩
  let host := { host with asked := host.asked + 1, server.startup := some startup }
  let host := host.tell (.initializing startup)
  let spawned := outside.spawn host.asked
  let host := { host with asked := host.asked + 1 }
  match spawned with
  | .error error => (host, some error)
  | .ok usesDirenv => host.initializeSpawned outside startup usesDirenv now

def orFail : Host × Option String → Host
  | (host, none) => host
  | (host, some message) => host.failSession message

/-- A start that fails fails all that waits for it. -/
def start (now : Instant) : Host := orFail (host.startSession outside now)

def insertDocument (path : Path) : Host :=
  { host with server.openDocuments :=
      if path ∈ host.server.openDocuments then host.server.openDocuments
      else host.server.openDocuments.takeWhile (· < path) ++
        path :: host.server.openDocuments.dropWhile (· < path) }

def enqueue (command : Command) (now : Instant) : Host :=
  let host := { host with server.pending := host.server.pending ++ [command] }
  if host.server.session.isNone then host.start outside now else host

def queue (command : Command) (now : Instant) : Host :=
  match command with
  | .openDocument path => (host.insertDocument path).enqueue outside command now
  | .request _ query =>
    { host.insertDocument query.path with queued := host.queued ++ [query] }.enqueue outside command now
  | _ => host

/-- Carry out a session's work, and what it leads to. -/
def work {α : Type} (task : SessionWork α) (done : Host → α → Host) (failed : Host → String → Host) :
    Host :=
  match host.server.session with
  | none => host
  | some session =>
    match task (host.scene session) with
    | .ok a scene => done (host.after scene) a
    | .error error scene => failed (host.after scene) error

def filesChanged (changes : List FileChange) : Host :=
  host.work (SessionWork.filesChanged outside changes) (fun host _ => host) failSession

def restart (now : Instant) : Host :=
  let (_, host) := host.failRequests "language server restarted"
  let host := { host with
    server.pending := host.server.openDocuments.map .openDocument
    server.session := none }
  if host.server.openDocuments.isEmpty then host else host.start outside now

def deliver : Option Event → Host
  | none => host
  | some (.ready startup) => { host with server.startup := none }.tell (.ready startup)
  | some (.locations toastId operation snapshotId locations unindexedFiles) =>
    host.tell (.locations toastId operation snapshotId
      (operation.filterLocations host.server.project.root locations) unindexedFiles)
  | some event => host.tell event

def message (inbound : Inbound Value) (now : Instant) : Host :=
  host.work (SessionWork.handle outside inbound now) deliver failSession

def handleDeadline (now : Instant) : Host :=
  host.work (SessionWork.handleDeadline outside now) deliver failSession

/-- Hand a queued command to the ready session. -/
def dispatch (now : Instant) : Command → Host
  | .openDocument path =>
    host.work (SessionWork.openDocument outside path) (fun host _ => host)
      fun host error => host.fail none none error
  | .request operation query =>
    host.work (SessionWork.request outside operation query now) (fun host _ => host)
      fun host error => host.failQuery error query
  | _ => host

/-- While the session is ready, the next command that waits. -/
def dispatchAll (now : Instant) : List Command → Host → Host
  | [], host => host
  | command :: rest, host =>
    if host.isReady then
      dispatchAll now rest ({ host with server.pending := rest }.dispatch outside now command)
    else host

def dispatchPendingCommands (now : Instant) : Host := dispatchAll outside now host.server.pending host

def shutdown (now : Instant) : Host :=
  let host := { host with server.stopping := true, server.pending := [] }
  if host.server.session.isNone then { host with isRunning := false }
  else host.work (SessionWork.beginShutdown outside now) (fun host _ => host)
    fun host _ => { host with isRunning := false }

/-- How the loop goes on after what it received. -/
def goOn (now : Instant) : Host :=
  if !host.isRunning then host
  else if host.server.session.any Session.isStopped then { host with isRunning := false }
  else if host.server.stopping && host.server.session.isNone then { host with isRunning := false }
  else host.dispatchPendingCommands outside now

end Host

/-- What the thread receives. -/
inductive Action (Value : Type) where
  | command (command : Command) (now : Instant)
  | message (inbound : Inbound Value) (now : Instant)
  /-- The session's reader is gone. -/
  | disconnected (now : Instant)
  | deadline (now : Instant)

namespace Host

variable {Value : Type} (outside : Outside Value)

def carryOut (host : Host) : Action Value → Host
  | .command .shutdown now => host.shutdown outside now
  | .command .restart now => host.restart outside now
  | .command (.filesChanged changes) _ => host.filesChanged outside changes
  | .command command now => host.queue outside command now
  | .message inbound now => host.message outside inbound now
  | .disconnected _ => host.failSession "language server stopped"
  | .deadline now => host.handleDeadline outside now

end Host

def Action.now {Value : Type} : Action Value → Instant
  | command _ now | message _ now | disconnected now | deadline now => now

namespace Host

variable {Value : Type} (outside : Outside Value)

def step (host : Host) (action : Action Value) : Host :=
  (host.carryOut outside action).goOn outside action.now

/-- What the thread can receive, as long as nobody asks it to shut down. -/
def Allowed (host : Host) : Action Value → Prop
  | .command command _ => host.isRunning = true ∧ command ≠ .shutdown
  | .message _ _ | .disconnected _ => host.isRunning = true ∧ host.server.session.isSome = true
  | .deadline _ => host.isRunning = true ∧ (host.server.session.bind Session.nextDeadline).isSome = true

/-- The servers that runs without a shutdown reach. -/
def Reachable (project : Project) : Host → Prop := Reaches (step outside) Allowed (new project)

end Host

end ProgressiveReviewer.Lsp
