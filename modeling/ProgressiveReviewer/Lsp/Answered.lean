import ProgressiveReviewer.Lsp.Exchanges
import ProgressiveReviewer.Lsp.Server
import Mathlib.Data.List.Count
import Mathlib.Data.List.Induction

/-! Every request that a language server's thread takes has one answer or still waits, and
every startup ends once. -/

namespace ProgressiveReviewer.Lsp

open Library

/-! ## What the thread owes -/

/-- The startups that events tell of, each ended once before the next begins, and the one that
is under way. -/
inductive StartupsSettle : List Event → Option ServerStartup → Prop
  | nil : StartupsSettle [] none
  | begins {events : List Event} {startup : ServerStartup} (before : StartupsSettle events none) :
      StartupsSettle (events ++ [.initializing startup]) (some startup)
  | ready {events : List Event} {startup : ServerStartup} (before : StartupsSettle events (some startup)) :
      StartupsSettle (events ++ [.ready startup]) none
  | failed {events : List Event} {startup : ServerStartup} {message : String}
      (before : StartupsSettle events (some startup)) :
      StartupsSettle (events ++ [.failed (some startup.id) none message]) none
  | other {events : List Event} {under : Option ServerStartup} {event : Event}
      (before : StartupsSettle events under)
      (apart : event.key.isSome = true ∨ ∃ message, event = .failed none none message) :
      StartupsSettle (events ++ [event]) under

/-- How often a query in these hands may still be written. -/
def State.left (state : State) (query : Query) : Nat :=
  match state with
  | querying _ _ active attempt _ => if active = query then 9 - attempt else 0
  | retrying _ active attempt _ => if active = query then 10 - attempt else 0
  | _ => 0

/-- The query in these hands. -/
def State.active : State → Option Query
  | querying _ _ query _ _ | retrying _ query _ _ => some query
  | _ => none

namespace Host

variable (host : Host)

/-- The requests that were answered, by the names their events carry. -/
def answers : List (ToastId × String) := host.events.filterMap Event.key

def queries : List Query := host.server.pending.filterMap Command.query

/-- The requests that wait for the session, are asked or are to be asked again. -/
def waiting : List Query := (host.server.session.bind Session.activeQuery).toList ++ host.queries

/-- How often a query was written to a server. -/
def sends (query : Query) : Nat := host.sent.countP (·.query = query)

def left (query : Query) : Nat := (host.server.session.map fun session => session.state.left query).getD 0

def Phase (startup : Option ServerStartup) : Option Session → Prop
  | none => startup = none
  | some session => session.state.isLive = true ∧
      startup = if session.state.isStarting then some session.startup else none

/-- The identifiers of a session count up, and the query in its hands is the last one
written. -/
structure Numbered (core : Core) : Prop where
  next : core.nextId = min (core.written.length + 1) maxId
  ids : ∀ i sent, core.written[i]? = some sent → sent.id = min (i + 1) maxId
  asked : ∀ id operation query attempt deadline,
    core.state = .querying id operation query attempt deadline →
      attempt ≤ 9 ∧ core.written.getLast? = some ⟨id, operation, query, attempt⟩
  again : ∀ operation query attempt retryAt, core.state = .retrying operation query attempt retryAt →
    attempt ≤ 9

/-- What holds also while a session fails. -/
structure Accounts : Prop where
  running : host.isRunning = true
  going : host.server.stopping = false
  settled : ∀ key, (host.queued.map Query.key).count key =
    host.answers.count key + (host.waiting.map Query.key).count key
  startups : StartupsSettle host.events host.server.startup
  bounded : ∀ query, host.sends query + 10 * host.queries.count query ≤ 10 * host.queued.count query

structure Inv : Prop where
  running : host.isRunning = true
  going : host.server.stopping = false
  settled : ∀ key, (host.queued.map Query.key).count key =
    host.answers.count key + (host.waiting.map Query.key).count key
  startups : StartupsSettle host.events host.server.startup
  phase : Phase host.server.startup host.server.session
  bounded : ∀ query, host.sends query + 10 * host.queries.count query + host.left query ≤
    10 * host.queued.count query
  numbered : ∀ session, host.server.session = some session → Numbered (host.scene session).core

variable {host}

theorem Inv.accounts (inv : Inv host) : Accounts host :=
  ⟨inv.running, inv.going, inv.settled, inv.startups, fun query => by have := inv.bounded query; omega⟩

theorem inv_new {project : Project} : Inv (new project) where
  running := rfl
  going := rfl
  settled _ := rfl
  startups := .nil
  phase := rfl
  bounded _ := Nat.le_refl _
  numbered := nofun

/-! ## Failing -/

def failing (message : String) (query : Query) : Event :=
  .failed (some query.toastId) (some query.snapshotId) message

theorem failQuery_foldl (message : String) (queries : List Query) (host : Host) :
    queries.foldl (fun host => host.failQuery message) host =
      { host with events := host.events ++ queries.map (failing message) } := by
  induction queries generalizing host with
  | nil => simp
  | cons query queries ih =>
    rw [List.foldl_cons, ih]
    simp [failQuery, fail, tell, failing]

theorem startups_fail {events : List Event} {startup : Option ServerStartup} {message : String}
    (before : StartupsSettle events startup) (queries : List Query) :
    StartupsSettle (events ++ queries.map (failing message)) startup := by
  induction queries using List.reverseRecOn with
  | nil => simpa using before
  | append_singleton queries query ih =>
    rw [List.map_append, ← List.append_assoc]
    exact .other ih (.inl rfl)

theorem filterMap_failing {message : String} {queries : List Query} :
    (queries.map (failing message)).filterMap Event.key = queries.map Query.key := by
  induction queries with
  | nil => rfl
  | cons query queries ih => simpa [failing, Event.key, Query.key] using ih

/-- All that was queued has its answer. -/
structure Paid (host : Host) : Prop where
  running : host.isRunning = true
  going : host.server.stopping = false
  settled : ∀ key, (host.queued.map Query.key).count key = host.answers.count key
  startups : StartupsSettle host.events none
  idle : host.server.startup = none
  bounded : ∀ query, host.sends query ≤ 10 * host.queued.count query

theorem failRequests_paid (accounts : Accounts host) (message : String) :
    Paid (host.failRequests message).2 := by
  have named : ∀ events : List Event, (events ++ host.waiting.map (failing message)).filterMap Event.key =
      events.filterMap Event.key ++ host.waiting.map Query.key := fun events => by
    rw [List.filterMap_append, filterMap_failing]
  have settled : ∀ key, (host.queued.map Query.key).count key =
      (host.answers ++ host.waiting.map Query.key).count key := fun key => by
    rw [List.count_append]
    exact accounts.settled key
  have bounded : ∀ query, host.sends query ≤ 10 * host.queued.count query := fun query =>
    Nat.le_trans (Nat.le_add_right _ _) (accounts.bounded query)
  have before := accounts.startups
  unfold failRequests
  dsimp only
  rw [failQuery_foldl]
  cases startup : host.server.startup with
  | none =>
    rw [startup] at before
    refine ⟨accounts.running, accounts.going, fun key => ?_, startups_fail before _, rfl, bounded⟩
    exact (settled key).trans (congrArg (List.count key) (named host.events).symm)
  | some under =>
    rw [startup] at before
    refine ⟨accounts.running, accounts.going, fun key => ?_, startups_fail (.failed before) _, rfl, bounded⟩
    refine (settled key).trans (congrArg (List.count key) (.trans ?_ (named _).symm))
    refine congrArg (· ++ host.waiting.map Query.key) ?_
    change host.events.filterMap Event.key = (host.events ++ [_]).filterMap Event.key
    rw [List.filterMap_append]
    exact (List.append_nil _).symm

theorem Paid.told (paid : Paid host) (message : String) : Paid (host.fail none none message) where
  running := paid.running
  going := paid.going
  settled key := by
    change _ = ((host.events ++ [_]).filterMap Event.key).count key
    rw [List.filterMap_append]
    exact (paid.settled key).trans (congrArg (List.count key) (List.append_nil _).symm)
  startups := .other paid.startups (.inr ⟨message, rfl⟩)
  idle := paid.idle
  bounded := paid.bounded

/-- Without a session, commands that name no request may wait. -/
theorem Paid.inv (paid : Paid host) {pending : List Command}
    (silent : pending.filterMap Command.query = []) :
    Inv { host with server.session := none, server.pending := pending } where
  running := paid.running
  going := paid.going
  settled key := by
    change _ = _ + ((pending.filterMap Command.query).map Query.key).count key
    rw [silent]
    exact paid.settled key
  startups := paid.idle ▸ paid.startups
  phase := paid.idle
  bounded query := by
    change _ + 10 * (pending.filterMap Command.query).count query + 0 ≤ _
    rw [silent]
    exact paid.bounded query
  numbered := nofun

/-- A session that fails leaves nothing that waits. -/
theorem failSession_inv (accounts : Accounts host) (message : String) : Inv (host.failSession message) := by
  have paid := failRequests_paid accounts message
  unfold failSession
  rw [if_neg (by simp [accounts.going])]
  dsimp only
  split
  · exact (paid.told message).inv rfl
  · exact paid.inv rfl

/-! ## A session at work -/

/-- The invariant of a host whose session has this core. -/
structure Serves (host : Host) (core : Core) : Prop where
  running : host.isRunning = true
  going : host.server.stopping = false
  settled : ∀ key, (host.queued.map Query.key).count key =
    host.answers.count key + ((core.state.active.toList ++ host.queries).map Query.key).count key
  startups : StartupsSettle host.events host.server.startup
  live : core.state.isLive = true
  startup : host.server.startup = if core.state.isStarting then some core.startup else none
  bounded : ∀ query, core.sent.countP (·.query = query) + 10 * host.queries.count query +
    core.state.left query ≤ 10 * host.queued.count query
  numbered : Numbered core

theorem waiting_eq {s : Session} (holds : host.server.session = some s) :
    host.waiting = s.state.active.toList ++ host.queries := by
  have active : s.activeQuery = s.state.active := by
    unfold Session.activeQuery State.active
    cases s.state <;> rfl
  unfold waiting
  rw [holds, ← active]
  rfl

theorem Inv.serves {session : Session} (inv : Inv host) (holds : host.server.session = some session) :
    Serves host (host.scene session).core where
  running := inv.running
  going := inv.going
  settled key := by
    rw [inv.settled key, waiting_eq holds]
    rfl
  startups := inv.startups
  live := by
    have phase := inv.phase
    rw [holds] at phase
    exact phase.1
  startup := by
    have phase := inv.phase
    rw [holds] at phase
    exact phase.2
  bounded query := by
    have bounded := inv.bounded query
    rw [left, holds] at bounded
    exact bounded
  numbered := inv.numbered session holds

theorem Serves.inv {scene : Scene} (serves : Serves host scene.core) : Inv (host.after scene) where
  running := serves.running
  going := serves.going
  settled key := by
    rw [waiting_eq (s := scene.session) rfl]
    exact serves.settled key
  startups := serves.startups
  phase := ⟨serves.live, serves.startup⟩
  bounded := serves.bounded
  numbered session holds := by
    obtain rfl := Option.some.inj holds
    exact serves.numbered

theorem after_scene {session : Session} (holds : host.server.session = some session) :
    host.after (host.scene session) = host := by
  unfold after scene
  rw [← holds]

/-- What a session's work that fails leaves still accounts for every request. -/
theorem Serves.lost {core : Core} {scene : Scene} (serves : Serves host core)
    (lost : Lost core scene.core) : Accounts (host.after scene) := by
  have accounts : ∀ core', Lost core core' → core'.state.active = core.state.active ∧
      ∀ query, core'.sent.countP (·.query = query) + 10 * host.queries.count query ≤
        10 * host.queued.count query := fun core' lost => by
    cases lost with
    | nothing => exact ⟨rfl, fun query => Nat.le_trans (Nat.le_add_right _ _) (serves.bounded query)⟩
    | startup starting =>
      refine ⟨?_, fun query => Nat.le_trans (Nat.le_add_right _ _) (serves.bounded query)⟩
      cases state : core.state <;> simp_all [State.isStarting, State.active, Core.into]
    | @repeated operation query attempt retryAt retries =>
      refine ⟨rfl, fun other => ?_⟩
      have few := serves.numbered.again _ _ _ _ retries
      have bounded := serves.bounded other
      rw [retries] at bounded
      simp only [State.left] at bounded
      simp only [Core.written1, List.countP_append, List.countP_singleton, decide_eq_true_eq]
      split at bounded
      · next same => rw [if_pos same]; omega
      · next other => rw [if_neg other]; omega
  obtain ⟨same, bounded⟩ := accounts _ lost
  refine ⟨serves.running, serves.going, fun key => ?_, serves.startups, bounded⟩
  rw [waiting_eq (s := scene.session) rfl]
  refine (serves.settled key).trans ?_
  rw [← same]
  rfl

/-! ## Starting -/

theorem numbered_first {startup : ServerStartup} {sent : List Sent} {deadline : Instant} :
    Numbered ⟨startup, .initializing 0 deadline, 1, [], sent⟩ where
  next := by
    change 1 = min (0 + 1) maxId
    decide
  ids := nofun
  asked := nofun
  again := nofun

variable {Value : Type} {outside : Outside Value} {now : Instant}

theorem initializeSpawned_inv (accounts : Accounts host) (none : host.server.session = none)
    {startup : ServerStartup} (under : host.server.startup = some startup) {usesDirenv : Bool} :
    Inv (orFail (host.initializeSpawned outside startup usesDirenv now)) := by
  unfold initializeSpawned
  generalize first : (⟨host.server.project.server, usesDirenv, startup, 1, .utf16, [], [], .stopped, []⟩ :
    Session) = session
  have leaves : Leaves (SessionWork.initializeSession outside host.server.project now) _ _
    (host.scene session) := SessionWork.initializeSession_core
  unfold Leaves at leaves
  dsimp only
  cases run : SessionWork.initializeSession outside host.server.project now (host.scene session) with
  | error error scene =>
    have same : Accounts { host with asked := scene.asked + 1 } :=
      ⟨accounts.running, accounts.going, accounts.settled, accounts.startups, accounts.bounded⟩
    exact failSession_inv same _
  | ok _ scene =>
    rw [run] at leaves
    obtain ⟨deadline, core⟩ := leaves
    subst first
    refine Serves.inv ?_
    rw [core]
    refine ⟨accounts.running, accounts.going, fun key => (accounts.settled key).trans ?_,
      accounts.startups, rfl, under, accounts.bounded, numbered_first⟩
    unfold waiting
    rw [none]
    rfl

theorem start_inv (inv : Inv host) (none : host.server.session = none) : Inv (host.start outside now) := by
  have startup : host.server.startup = .none := by
    have phase := inv.phase
    rwa [none] at phase
  have accounts : ∀ (startup : ServerStartup) (asked : Nat), Accounts
      { host with
        asked
        server.startup := some startup
        events := host.events ++ [Event.initializing startup] } := fun _ _ => by
    refine ⟨inv.running, inv.going, fun key => (inv.settled key).trans ?_, .begins (startup ▸ inv.startups),
      inv.accounts.bounded⟩
    unfold answers
    rw [List.filterMap_append]
    exact congrArg (List.count key · + _) (List.append_nil _).symm
  unfold start startSession
  dsimp only
  cases outside.spawn _ with
  | error error => exact failSession_inv (accounts _ _) _
  | ok usesDirenv => exact initializeSpawned_inv (accounts _ _) none rfl

/-! ## Queueing -/

theorem enqueue_inv (inv : Inv host) {documents : List Path} {command : Command} {queued : List Query}
    (all : queued = host.queued ++ command.query.toList) :
    Inv (enqueue outside { host with server.openDocuments := documents, queued } command now) := by
  subst all
  have queries : (host.server.pending ++ [command]).filterMap Command.query =
      host.queries ++ command.query.toList := by
    rw [List.filterMap_append]
    cases named : command.query <;> simp [Host.queries, named]
  have queued : Inv { host with
      server.pending := host.server.pending ++ [command]
      server.openDocuments := documents
      queued := host.queued ++ command.query.toList } := by
    refine ⟨inv.running, inv.going, fun key => ?_, inv.startups, inv.phase, fun query => ?_,
      fun session holds => inv.numbered session holds⟩
    · have before := inv.settled key
      simp only [waiting, List.map_append, List.count_append] at before ⊢
      simp only [Host.queries] at queries before ⊢
      rw [queries, List.map_append, List.count_append]
      change _ = host.answers.count key + _
      omega
    · have before := inv.bounded query
      simp only [sends, left, Host.queries] at queries before ⊢
      rw [queries, List.count_append, List.count_append]
      omega
  unfold enqueue
  dsimp only
  split
  · next none => exact start_inv queued (Option.isNone_iff_eq_none.mp none)
  · exact queued

theorem queue_inv (inv : Inv host) {command : Command} : Inv (host.queue outside command now) := by
  cases command with
  | openDocument path => exact enqueue_inv inv (List.append_nil _).symm
  | request operation query => exact enqueue_inv inv rfl
  | filesChanged changes | restart | shutdown => exact inv

theorem restart_inv (inv : Inv host) : Inv (host.restart outside now) := by
  have paid := failRequests_paid inv.accounts "language server restarted"
  have silent : ∀ documents : List Path,
      (documents.map Command.openDocument).filterMap Command.query = [] := fun documents => by
    rw [List.filterMap_map]
    exact List.filterMap_eq_nil_iff.mpr fun _ _ => rfl
  unfold restart
  dsimp only
  split
  · exact paid.inv (silent _)
  · exact start_inv (paid.inv (silent _)) rfl

/-! ## Handling -/

theorem work_holds {α : Type} {task : SessionWork α} {done : Host → α → Host}
    {failed : Host → String → Host} (P : Host → Prop) {session : Session}
    (holds : host.server.session = some session)
    (leaves : Leaves task (fun a s => P (done (host.after s) a)) (fun e s => P (failed (host.after s) e))
      (host.scene session)) : P (host.work task done failed) := by
  unfold work
  rw [holds]
  unfold Leaves at leaves
  dsimp only
  cases run : task (host.scene session) with
  | ok a s =>
    rw [run] at leaves
    exact leaves
  | error e s =>
    rw [run] at leaves
    exact leaves

theorem work_leaves {α : Type} {task : SessionWork α} {done : Host → α → Host}
    {failed : Host → String → Host} (P : Host → Prop) (idle : P host)
    (leaves : ∀ session, host.server.session = some session → Leaves task
      (fun a s => P (done (host.after s) a)) (fun e s => P (failed (host.after s) e))
      (host.scene session)) : P (host.work task done failed) := by
  cases holds : host.server.session with
  | none =>
    unfold work
    rw [holds]
    exact idle
  | some session => exact work_holds P holds (leaves session holds)

theorem filesChanged_inv (inv : Inv host) {changes : List FileChange} :
    Inv (host.filesChanged outside changes) := by
  refine work_leaves Inv inv fun session holds => ?_
  refine SessionWork.quiet_filesChanged.leaves (fun _ s same => Serves.inv ?_) fun e s same => ?_
  · rw [same]
    exact inv.serves holds
  · refine failSession_inv ((inv.serves holds).lost ?_) e
    rw [same]
    exact .nothing

theorem deliver_after {event : Option Event} {scene : Scene} :
    (host.after scene).deliver event = (host.deliver event).after scene := by
  unfold deliver
  split <;> rfl

theorem deliver_named (host : Host) {event : Event} {key : ToastId × String} (named : event.key = some key) :
    ∃ event' : Event, host.deliver (some event) = host.tell event' ∧ event'.key = some key := by
  cases event with
  | ready startup | initializing startup => cases named
  | hover toastId snapshotId markdown => exact ⟨_, rfl, named⟩
  | locations toastId operation snapshotId locations unindexedFiles => exact ⟨_, rfl, named⟩
  | failed toastId snapshotId message => exact ⟨_, rfl, named⟩

theorem Numbered.into {core : Core} (numbered : Numbered core) {state : State}
    (idle : ∀ id operation query attempt deadline, state ≠ .querying id operation query attempt deadline)
    (again : ∀ operation query attempt retryAt, state = .retrying operation query attempt retryAt →
      attempt ≤ 9) : Numbered (core.into state) where
  next := numbered.next
  ids := numbered.ids
  asked _ _ _ _ _ same := absurd same (idle _ _ _ _ _)
  again := again

/-- One more request on its way, under the next identifier. -/
theorem Numbered.written1 {core : Core} (numbered : Numbered core) {o : Operation} {q : Query} {a : Nat}
    {s : State}
    (asked : ∀ id operation query attempt deadline, s = .querying id operation query attempt deadline →
      attempt ≤ 9 ∧ (⟨id, operation, query, attempt⟩ : Sent) = ⟨core.nextId, o, q, a⟩)
    (again : ∀ operation query attempt retryAt, s = .retrying operation query attempt retryAt →
      attempt ≤ 9) : Numbered ((core.written1 o q a).into s) where
  next := by
    change min (core.nextId + 1) maxId = min ((core.written ++ [_]).length + 1) maxId
    rw [numbered.next, List.length_append, List.length_singleton]
    omega
  ids i sent found := by
    change (core.written ++ [_])[i]? = some sent at found
    rw [List.getElem?_append] at found
    split at found
    · exact numbered.ids i sent found
    · next past =>
      rw [List.getElem?_singleton] at found
      split at found
      · obtain rfl := Option.some.inj found
        have last : i = core.written.length := by omega
        rw [last]
        exact numbered.next
      · cases found
  asked id operation' query' attempt' deadline same := by
    obtain ⟨few, last⟩ := asked _ _ _ _ _ same
    refine ⟨few, ?_⟩
    rw [last]
    exact List.getLast?_concat
  again := again

theorem State.idle_of_starting {state : State} (starting : state.isStarting = true) :
    state.active = none ∧ ∀ query, state.left query = 0 := by
  cases state with
  | initializing id deadline | quiescing deadline => exact ⟨rfl, fun _ => rfl⟩
  | ready | querying id operation query attempt deadline | retrying operation query attempt retryAt
  | shuttingDown id deadline | stopped => cases starting

theorem filterMap_singleton {event : Event} {key : ToastId × String} (named : event.key = some key) :
    [event].filterMap Event.key = [key] := by
  rw [List.filterMap_cons, named]
  rfl

theorem Serves.handled {core core' : Core} {event : Option Event} (serves : Serves host core)
    (handled : Handled core event core') : Serves (host.deliver event) core' := by
  cases handled with
  | nothing => exact serves
  | @quiesces deadline starting =>
    obtain ⟨idle, left⟩ := State.idle_of_starting starting
    refine ⟨serves.running, serves.going, fun key => ?_, serves.startups, rfl, ?_, fun query => ?_,
      serves.numbered.into nofun nofun⟩
    · have settled := serves.settled key
      rwa [idle] at settled
    · rw [deliver, serves.startup, if_pos starting]
      rfl
    · have bounded := serves.bounded query
      rwa [left] at bounded
  | ready starting =>
    obtain ⟨idle, left⟩ := State.idle_of_starting starting
    have startups := serves.startups
    rw [serves.startup, if_pos starting] at startups
    refine ⟨serves.running, serves.going, fun key => ?_, .ready startups, rfl, rfl, fun query => ?_,
      serves.numbered.into nofun nofun⟩
    · have settled := serves.settled key
      rw [idle] at settled
      refine settled.trans ?_
      rw [deliver, tell, answers, answers, List.filterMap_append]
      exact congrArg (List.count key · + _) (List.append_nil _).symm
    · have bounded := serves.bounded query
      rwa [left] at bounded
  | @modified id operation query attempt deadline retryAt waits again =>
    have running := serves.settled
    have startup := serves.startup
    rw [waits] at running startup
    refine ⟨serves.running, serves.going, running, serves.startups, rfl, startup, fun other => ?_,
      serves.numbered.into nofun fun _ _ _ _ same => ?_⟩
    · have bounded := serves.bounded other
      rw [waits] at bounded
      simp only [State.left] at bounded
      simp only [Core.into, State.left, deliver]
      split at bounded
      · next same => rw [if_pos same]; omega
      · next other => rw [if_neg other]; omega
    · cases same
      omega
  | @answered id operation query attempt deadline event waits named =>
    obtain ⟨event', told, named⟩ := deliver_named host named
    have startup := serves.startup
    rw [waits] at startup
    rw [told]
    refine ⟨serves.running, serves.going, fun key => ?_, .other serves.startups (.inl ?_), rfl, startup,
      fun other => ?_, serves.numbered.into nofun nofun⟩
    · have settled := serves.settled key
      rw [waits] at settled
      refine settled.trans ?_
      rw [tell, answers, answers, List.filterMap_append, List.count_append, filterMap_singleton named]
      simp only [State.active, Core.into, Option.toList_some, Option.toList_none, List.map_append,
        List.count_append, List.map_nil, List.count_nil, queries]
      rw [Nat.zero_add, Nat.add_assoc]
      rfl
    · rw [named]
      rfl
    · have bounded := serves.bounded other
      exact Nat.le_trans (Nat.le_add_right _ _) bounded
  | @repeated operation query attempt deadline retryAt retries =>
    have settled := serves.settled
    have startup := serves.startup
    have few := serves.numbered.again _ _ _ _ retries
    rw [retries] at settled startup
    refine ⟨serves.running, serves.going, settled, serves.startups, rfl, startup, fun other => ?_,
      serves.numbered.written1 (fun _ _ _ _ _ same => ?_) nofun⟩
    · have bounded := serves.bounded other
      rw [retries] at bounded
      simp only [State.left] at bounded
      simp only [Core.waits, Core.into, Core.written1, State.left, List.countP_append,
        List.countP_singleton, decide_eq_true_eq, deliver]
      split at bounded
      · next same => rw [if_pos same, if_pos same]; omega
      · next other => rw [if_neg other, if_neg other]; omega
    · cases same
      exact ⟨few, rfl⟩

theorem message_inv (inv : Inv host) {inbound : Inbound Value} : Inv (host.message outside inbound now) := by
  refine work_leaves Inv inv fun session holds => ?_
  have serves := inv.serves holds
  refine (SessionWork.handle_core serves.live).mono (fun event s handled => ?_) fun e s lost =>
    failSession_inv (serves.lost lost) e
  rw [deliver_after]
  exact (serves.handled handled).inv

theorem handleDeadline_inv (inv : Inv host) : Inv (host.handleDeadline outside now) := by
  refine work_leaves Inv inv fun session holds => ?_
  have serves := inv.serves holds
  refine (SessionWork.handleDeadline_core serves.live).mono (fun event s handled => ?_) fun e s lost =>
    failSession_inv (serves.lost lost) e
  rw [deliver_after]
  exact (serves.handled handled).inv

/-! ## Dispatching -/

theorem dispatch_pending {command : Command} :
    (host.dispatch outside now command).server.pending = host.server.pending := by
  unfold dispatch
  cases command with
  | openDocument path | request operation query =>
    dsimp only
    unfold work
    split
    · rfl
    · split <;> rfl
  | filesChanged changes | restart | shutdown => rfl

section Handed

variable {core : Core} {operation : Operation} {query : Query} {rest : List Command}

/-- A request that the ready session was handed is on its way. -/
theorem Serves.asks (serves : Serves host core) (ready : core.state = .ready)
    (pending : host.server.pending = .request operation query :: rest) {deadline : Instant} :
    Serves { host with server.pending := rest } (core.waits operation query 0 deadline) where
  running := serves.running
  going := serves.going
  settled key := by
    have settled := serves.settled key
    rwa [ready, queries, pending] at settled
  startups := serves.startups
  live := rfl
  startup := by
    have startup := serves.startup
    rwa [ready] at startup
  bounded other := by
    have bounded := serves.bounded other
    rw [ready, queries, pending, List.filterMap_cons] at bounded
    simp only [Command.query, State.left, List.count_cons, beq_iff_eq] at bounded
    simp only [Core.waits, Core.into, Core.written1, State.left, List.countP_append,
      List.countP_singleton, decide_eq_true_eq, queries]
    split at bounded
    · next same => rw [if_pos same, if_pos same]; omega
    · next apart => rw [if_neg apart, if_neg apart]; omega
  numbered := serves.numbered.written1 (fun _ _ _ _ _ same => by cases same; exact ⟨Nat.zero_le _, rfl⟩) nofun

/-- A request that could not be handed over fails, perhaps with its bytes written. -/
theorem Serves.refused (serves : Serves host core) (ready : core.state = .ready)
    (pending : host.server.pending = .request operation query :: rest) {core' : Core}
    (left : core' = core ∨ core' = core.written1 operation query 0) {message : String} :
    Serves ({ host with server.pending := rest }.failQuery message query) core' := by
  have startup := serves.startup
  rw [ready] at startup
  have same : core'.state = .ready ∧ Numbered core' ∧ ∀ other, core'.sent.countP (·.query = other) ≤
      core.sent.countP (·.query = other) + if query = other then 1 else 0 := by
    rcases left with rfl | rfl
    · exact ⟨ready, serves.numbered, fun _ => Nat.le_add_right _ _⟩
    · have written := serves.numbered.written1 (o := operation) (q := query) (a := 0) (s := core.state)
        (fun _ _ _ _ _ same => by rw [ready] at same; cases same) fun _ _ _ _ same => by
          rw [ready] at same
          cases same
      refine ⟨ready, written, fun other => ?_⟩
      simp [Core.written1, List.countP_append, List.countP_singleton]
  obtain ⟨idle, numbered, sent⟩ := same
  refine ⟨serves.running, serves.going, fun key => ?_, .other serves.startups (.inl rfl), ?_, ?_,
    fun other => ?_, numbered⟩
  · have settled := serves.settled key
    rw [ready, queries, pending] at settled
    rw [idle]
    refine settled.trans ?_
    have handed : ∀ keys : List (ToastId × String),
        (query.key :: keys).count key = [query.key].count key + keys.count key := fun keys =>
      (List.count_append : ([query.key] ++ keys).count key = _)
    unfold answers
    rw [failQuery, fail, tell, List.filterMap_append, List.count_append, Nat.add_assoc]
    exact congrArg (_ + ·) (handed _)
  · rw [idle]
    rfl
  · rw [idle]
    exact startup
  · have bounded := serves.bounded other
    have sent := sent other
    rw [ready, queries, pending, List.filterMap_cons] at bounded
    simp only [Command.query, State.left, List.count_cons, beq_iff_eq] at bounded
    rw [idle]
    change _ + 10 * (rest.filterMap Command.query).count other + 0 ≤ 10 * host.queued.count other
    split at sent <;> simp_all <;> omega

theorem Serves.skips (serves : Serves host core) {command : Command} (silent : command.query = none)
    (pending : host.server.pending = command :: rest) :
    Serves { host with server.pending := rest } core := by
  have queries : host.queries = rest.filterMap Command.query := by
    rw [Host.queries, pending, List.filterMap_cons, silent]
  have settled := serves.settled
  have bounded := serves.bounded
  rw [queries] at settled
  rw [queries] at bounded
  exact ⟨serves.running, serves.going, settled, serves.startups, serves.live, serves.startup, bounded,
    serves.numbered⟩

/-- A failure that names no request. -/
theorem Serves.told (serves : Serves host core) (message : String) :
    Serves (host.fail none none message) core := by
  refine ⟨serves.running, serves.going, fun key => (serves.settled key).trans ?_,
    .other serves.startups (.inr ⟨message, rfl⟩), serves.live, serves.startup, serves.bounded,
    serves.numbered⟩
  rw [fail, tell, answers, answers, List.filterMap_append]
  exact congrArg (List.count key · + _) (List.append_nil _).symm

end Handed

/-- A command that the ready session was handed: one request less waits in the queue. -/
theorem dispatch_inv (inv : Inv host) (ready : host.isReady = true) {command : Command}
    {rest : List Command} (pending : host.server.pending = command :: rest) :
    Inv (dispatch outside { host with server.pending := rest } now command) := by
  obtain ⟨session, holds, ready⟩ := (Option.any_eq_true _ _).mp ready
  have serves := inv.serves holds
  have ready : (host.scene session).core.state = .ready := of_decide_eq_true ready
  have holds' : ({ host with server.pending := rest } : Host).server.session = some session := holds
  unfold dispatch
  cases command with
  | openDocument path =>
    have skips := serves.skips rfl pending
    refine work_holds Inv holds' (SessionWork.quiet_openDocument.leaves (fun _ s same => ?_) fun e s same => ?_)
    · refine Serves.inv ?_
      rw [same]
      exact skips
    · have told : Serves (fail { host with server.pending := rest } none none e) s.core := by
        rw [same]
        exact skips.told e
      exact told.inv
  | request operation query =>
    refine work_holds Inv holds' (SessionWork.startQuery_core.mono (fun _ s waits => ?_) fun e s left => ?_)
    · refine Serves.inv ?_
      rw [waits]
      exact serves.asks ready pending
    · exact Serves.inv (serves.refused ready pending left)
  | filesChanged changes | restart | shutdown =>
    rw [← after_scene holds']
    exact (serves.skips rfl pending).inv

theorem dispatchAll_inv {commands : List Command} (pending : host.server.pending = commands)
    (inv : Inv host) : Inv (dispatchAll outside now commands host) := by
  induction commands generalizing host with
  | nil => exact inv
  | cons command rest ih =>
    unfold dispatchAll
    split
    · next ready => exact ih dispatch_pending (dispatch_inv inv ready pending)
    · exact inv

theorem goOn_inv (inv : Inv host) : Inv (host.goOn outside now) := by
  have live : host.server.session.any Session.isStopped = false := by
    have phase := inv.phase
    cases holds : host.server.session with
    | none => rfl
    | some session =>
      rw [holds] at phase
      have live := phase.1
      cases state : session.state <;> simp_all [Session.isStopped, State.isLive]
  unfold goOn
  rw [inv.running, live, inv.going]
  exact dispatchAll_inv rfl inv

theorem step_inv {action : Action Value} (inv : Inv host) (may : Allowed host action) :
    Inv (host.step outside action) := by
  refine goOn_inv ?_
  match action with
  | .command .shutdown now => exact absurd rfl may.2
  | .command .restart now => exact restart_inv inv
  | .command (.filesChanged changes) now => exact filesChanged_inv inv
  | .command (.openDocument path) now =>
    change Inv (host.queue outside (.openDocument path) now)
    exact queue_inv inv
  | .command (.request operation query) now =>
    change Inv (host.queue outside (.request operation query) now)
    exact queue_inv inv
  | .message inbound now => exact message_inv inv
  | .disconnected now => exact failSession_inv inv.accounts _
  | .deadline now => exact handleDeadline_inv inv

theorem reachable_inv {project : Project} (reached : Reachable outside project host) : Inv host :=
  reached.invariant inv_new fun _ _ => step_inv

end Host

end ProgressiveReviewer.Lsp
