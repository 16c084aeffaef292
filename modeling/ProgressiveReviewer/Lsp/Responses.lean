import ProgressiveReviewer.Lsp.Answered

/-! What answers a request: the response to the identifier that its query was last sent with,
which is the query's own as long as a session's identifiers do not run out. -/

namespace ProgressiveReviewer.Lsp

open Library

/-- What a server answered to a query. -/
def Event.isResult : Event → Bool
  | hover _ _ _ | locations _ _ _ _ _ => true
  | _ => false

namespace Host

variable {Value : Type} {outside : Outside Value} {now : Instant} {host : Host}

/-- The message is the response to the identifier that the event's query was last sent with. -/
structure AnsweredBy (session : Session) (inbound : Inbound Value) (event : Event) (id : Nat)
    (operation : Operation) (query : Query) (attempt : Nat) : Prop where
  waits : ∃ deadline, session.state = .querying id operation query attempt deadline
  response : ∃ result, inbound = .message (.response (.number id) result)
  named : event.key = some query.key
  last : session.sent.getLast? = some ⟨id, operation, query, attempt⟩

/-- No other request of the session had the identifier. -/
def Sole (session : Session) (id : Nat) : Prop :=
  ∀ i sent, session.sent[i]? = some sent → sent.id = id → i + 1 = session.sent.length

/-- A response answers the query that it was asked for, while the session's identifiers
last. -/
def Own (host : Host) (inbound : Inbound Value) (event : Event) : Prop :=
  ∃ session id operation query attempt, host.server.session = some session ∧
    AnsweredBy session inbound event id operation query attempt ∧
    (session.sent.length ≤ maxId → Sole session id)

/-- The events that a step adds. -/
def Tells (P : Event → Prop) (host host' : Host) : Prop :=
  ∃ events, host'.events = host.events ++ events ∧ ∀ event ∈ events, P event

section Tells

variable {P : Event → Prop} {host' host'' : Host}

theorem Tells.refl : Tells P host host := ⟨[], (List.append_nil _).symm, nofun⟩

theorem Tells.since (tells : Tells P host host') (same : host.events = host''.events) :
    Tells P host'' host' := by
  obtain ⟨events, told, all⟩ := tells
  exact ⟨events, by rw [told, same], all⟩

theorem Tells.trans (first : Tells P host host') (second : Tells P host' host'') :
    Tells P host host'' := by
  obtain ⟨events, told, all⟩ := first
  obtain ⟨events', told', all'⟩ := second
  refine ⟨events ++ events', by rw [told', told, List.append_assoc], fun event mem => ?_⟩
  rcases List.mem_append.mp mem with mem | mem
  · exact all event mem
  · exact all' event mem

theorem tells_one {event : Event} (holds : P event) : Tells P host (host.tell event) :=
  ⟨[event], rfl, fun _ mem => List.mem_singleton.mp mem ▸ holds⟩

theorem Tells.mono {Q : Event → Prop} (tells : Tells P host host') (weaker : ∀ event, P event → Q event) :
    Tells Q host host' := by
  obtain ⟨events, told, all⟩ := tells
  exact ⟨events, told, fun event mem => weaker event (all event mem)⟩

theorem Tells.drop (tells : Tells P host host') {event : Event}
    (mem : event ∈ host'.events.drop host.events.length) : P event := by
  obtain ⟨events, told, all⟩ := tells
  rw [told, List.drop_left] at mem
  exact all event mem

end Tells

/-- A step that tells nothing that a server answered. -/
abbrev Silent (host host' : Host) : Prop := Tells (fun event => event.isResult = false) host host'

theorem failRequests_silent (message : String) : Silent host (host.failRequests message).2 := by
  have failings : ∀ queries : List Query, ∀ event ∈ queries.map (failing message),
      event.isResult = false := fun queries event mem => by
    obtain ⟨query, -, rfl⟩ := List.mem_map.mp mem
    rfl
  unfold failRequests
  dsimp only
  rw [failQuery_foldl]
  cases host.server.startup with
  | none => exact ⟨_, rfl, failings _⟩
  | some startup =>
    have failed : Silent host (host.fail (some startup.id) none message) := tells_one rfl
    exact failed.trans ⟨_, rfl, failings _⟩

theorem failSession_silent (message : String) : Silent host (host.failSession message) := by
  unfold failSession
  split
  · exact .refl
  · dsimp only
    split
    · exact (failRequests_silent message).trans (tells_one rfl)
    · exact failRequests_silent message

theorem initializeSpawned_silent {startup : ServerStartup} {usesDirenv : Bool} :
    Silent host (orFail (host.initializeSpawned outside startup usesDirenv now)) := by
  unfold initializeSpawned
  dsimp only
  split
  · exact .refl
  · exact failSession_silent _

theorem start_silent : Silent host (host.start outside now) := by
  unfold start startSession
  dsimp only
  have told : Silent host (host.tell (.initializing
    ⟨outside.toast host.asked, host.server.project.server.name⟩)) := tells_one rfl
  refine told.trans ?_
  split
  · exact (failSession_silent _).since rfl
  · exact initializeSpawned_silent.since rfl

theorem enqueue_silent {command : Command} : Silent host (host.enqueue outside command now) := by
  unfold enqueue
  dsimp only
  split
  · exact start_silent
  · exact .refl

theorem queue_silent {command : Command} : Silent host (host.queue outside command now) := by
  cases command with
  | openDocument path => exact enqueue_silent
  | request operation query => exact enqueue_silent
  | filesChanged changes | restart | shutdown => exact .refl

theorem restart_silent : Silent host (host.restart outside now) := by
  have failed : Silent host _ := failRequests_silent "language server restarted"
  unfold restart
  dsimp only
  split
  · exact failed
  · exact failed.trans start_silent

theorem work_tells {α : Type} {task : SessionWork α} {done : Host → α → Host}
    {failed : Host → String → Host} {P : Event → Prop} (ok : ∀ host a, Tells P host (done host a))
    (error : ∀ host e, Tells P host (failed host e)) : Tells P host (host.work task done failed) := by
  unfold work
  split
  · exact .refl
  · split
    · exact ok (host.after _) _
    · exact error (host.after _) _

theorem dispatch_silent {command : Command} : Silent host (host.dispatch outside now command) := by
  cases command with
  | openDocument path => exact work_tells (fun _ _ => .refl) fun _ _ => tells_one rfl
  | request operation query => exact work_tells (fun _ _ => .refl) fun _ _ => tells_one rfl
  | filesChanged changes | restart | shutdown => exact .refl

theorem dispatchAll_silent {commands : List Command} :
    Silent host (dispatchAll outside now commands host) := by
  induction commands generalizing host with
  | nil => exact .refl
  | cons command rest ih =>
    unfold dispatchAll
    split
    · have handed : Silent host (dispatch outside { host with server.pending := rest } now command) :=
        dispatch_silent.since rfl
      exact handed.trans ih
    · exact .refl

theorem goOn_silent : Silent host (host.goOn outside now) := by
  unfold goOn
  split
  · exact .refl
  · split
    · exact .refl
    · split
      · exact .refl
      · exact dispatchAll_silent

/-- No deadline gives a result. -/
theorem none_told {p : Event → Prop} : ∀ told ∈ (none : Option Event), p told :=
  fun _ mem => by cases mem

theorem handleDeadline_noResult {scene : Scene} :
    Leaves (SessionWork.handleDeadline outside now)
      (fun event _ => ∀ told ∈ event, Event.isResult told = false) (fun _ _ => True) scene := by
  unfold SessionWork.handleDeadline
  simp only [leaves_bind, leaves_get, SessionWork.leaves_setState]
  cases scene.session.state with
  | initializing id deadline | quiescing deadline =>
    dsimp only
    split
    · trivial
    · exact none_told
  | retrying operation query attempt retryAt =>
    simp only [leaves_bind, SessionWork.leaves_setState]
    split
    · rw [leaves_bind]
      exact SessionWork.leaves_true.mono (fun _ _ _ => none_told) fun _ _ => id
    · exact none_told
  | querying id operation query attempt deadline =>
    dsimp only
    split
    · rintro told ⟨⟩
      rfl
    · exact none_told
  | shuttingDown waiting deadline =>
    dsimp only
    split
    · simp only [leaves_bind]
      exact SessionWork.quiet_write.leaves (fun _ _ _ => none_told) fun _ _ _ => trivial
    · exact none_told
  | ready | stopped => exact none_told

theorem deliver_tells {P : Event → Prop} {event : Option Event}
    (holds : ∀ told ∈ event, ∀ event' : Event, event'.isResult = told.isResult → event'.key = told.key →
      P event') : Tells P host (host.deliver event) := by
  unfold deliver
  split
  · exact .refl
  · next startup => exact (tells_one (holds _ rfl _ rfl rfl)).since rfl
  · exact tells_one (holds _ rfl _ rfl rfl)
  · exact tells_one (holds _ rfl _ rfl rfl)

theorem handleDeadline_silent : Silent host (host.handleDeadline outside now) := by
  refine work_leaves (Silent host) .refl fun session _ => ?_
  refine handleDeadline_noResult.mono (fun event s none => ?_) fun e s _ => ?_
  · exact Tells.since (deliver_tells fun told mem event' same _ => same.trans (none told mem)) rfl
  · exact (failSession_silent _).since rfl

/-! ## A response to its own query -/

/-- While the identifiers last, the one written last was not written before. -/
theorem Numbered.sole {core : Core} (numbered : Numbered core) {last : Sent}
    (written : core.written.getLast? = some last) (few : core.written.length ≤ maxId) {i : Nat} {sent : Sent}
    (found : core.written[i]? = some sent) (same : sent.id = last.id) : i + 1 = core.written.length := by
  have before : i < core.written.length := (List.getElem?_eq_some_iff.mp found).1
  have first := numbered.ids i sent found
  rw [List.getLast?_eq_getElem?] at written
  have second := numbered.ids _ last written
  omega

/-- A message that answers a query is its own response. -/
theorem handled_own (inv : Inv host) {session : Session} (holds : host.server.session = some session)
    {inbound : Inbound Value} {event : Event} {core' : Core}
    (handled : Handled (host.scene session).core (some event) core')
    (own : event.key.isSome = true → SessionWork.AwaitedBy session.state inbound)
    (named : event.key.isSome = true) : Own host inbound event := by
  obtain ⟨id, operation, query, attempt, deadline, result, waits, response⟩ := own named
  have numbered := inv.numbered session holds
  have last := (numbered.asked _ _ _ _ _ waits).2
  cases handled with
  | ready starting => cases named
  | answered waits' named' =>
    obtain ⟨-, -, rfl, -, -⟩ := State.querying.inj (waits.symm.trans waits')
    exact ⟨session, id, operation, query, attempt, holds, ⟨⟨deadline, waits⟩, ⟨result, response⟩, named', last⟩,
      fun few i sent found same => numbered.sole last few found same⟩

theorem Own.congr {inbound : Inbound Value} {event event' : Event} (own : Own host inbound event)
    (same : event'.key = event.key) : Own host inbound event' := by
  obtain ⟨session, id, operation, query, attempt, holds, answered, sole⟩ := own
  exact ⟨session, id, operation, query, attempt, holds,
    ⟨answered.waits, answered.response, same.trans answered.named, answered.last⟩, sole⟩

theorem key_of_result {event : Event} (result : event.isResult = true) : event.key.isSome = true := by
  cases event with
  | hover toastId snapshotId markdown | locations toastId operation snapshotId locations unindexedFiles => rfl
  | initializing startup | ready startup | failed toastId snapshotId message => cases result

theorem failSession_gone (message : String) : (host.failSession message).server.session = none := by
  unfold failSession
  split <;> rfl

/-- What a message tells: results are the query's own, and while the session lives so are the
failures. -/
theorem message_tells (inv : Inv host) {inbound : Inbound Value} :
    Tells (fun event => (event.isResult = true → Own host inbound event) ∧
      (event.key.isSome = true → (host.message outside inbound now).server.session.isSome = true →
        Own host inbound event)) host (host.message outside inbound now) := by
  refine work_leaves (fun host' => Tells (fun event => (event.isResult = true → Own host inbound event) ∧
    (event.key.isSome = true → host'.server.session.isSome = true → Own host inbound event)) host host')
    .refl fun session holds => ?_
  have live := (inv.serves holds).live
  refine ((SessionWork.handle_core live).both SessionWork.handle_own).mono
    (fun event s ⟨handled, own⟩ => ?_) fun e s _ => ?_
  · refine Tells.since (deliver_tells fun told mem event' _ same => ?_) rfl
    obtain rfl := Option.mem_def.mp mem
    have answers : event'.key.isSome = true → Own host inbound event' := fun named =>
      (handled_own inv holds handled own (same ▸ named)).congr same
    exact ⟨fun result => answers (key_of_result result), fun named _ => answers named⟩
  · have silent : Silent host ((host.after s).failSession e) := (failSession_silent e).since rfl
    refine silent.mono fun event none => ⟨fun result => ?_, fun _ lives => ?_⟩
    · rw [none] at result
      cases result
    · rw [failSession_gone] at lives
      cases lives

/-- Results come from messages, each from its own. -/
theorem step_results (inv : Inv host) {action : Action Value} (may : Allowed host action) :
    Tells (fun event => event.isResult = true →
      ∃ inbound now, action = .message inbound now ∧ Own host inbound event) host
      (host.step outside action) := by
  have silent : ∀ {host'}, Silent host host' → Tells (fun event => event.isResult = true →
      ∃ inbound now, action = .message inbound now ∧ Own host inbound event) host host' := fun silent =>
    silent.mono fun event none result => by
      rw [none] at result
      cases result
  have later : ∀ {host' now}, Tells (fun event => event.isResult = true →
      ∃ inbound now, action = .message inbound now ∧ Own host inbound event) host host' →
      Tells (fun event => event.isResult = true →
        ∃ inbound now, action = .message inbound now ∧ Own host inbound event) host
        (host'.goOn outside now) := fun tells =>
    tells.trans (goOn_silent.mono fun event none result => by
      rw [none] at result
      cases result)
  refine later ?_
  match action with
  | .command .shutdown now => exact absurd rfl may.2
  | .command .restart now => exact silent restart_silent
  | .command (.filesChanged changes) now =>
    exact silent (work_tells (fun _ _ => .refl) fun _ e => failSession_silent e)
  | .command (.openDocument path) now =>
    change Tells _ host (host.queue outside (.openDocument path) now)
    exact silent queue_silent
  | .command (.request operation query) now =>
    change Tells _ host (host.queue outside (.request operation query) now)
    exact silent queue_silent
  | .message inbound now =>
    exact (message_tells inv).mono fun event tells result => ⟨inbound, now, rfl, tells.1 result⟩
  | .disconnected now => exact silent (failSession_silent _)
  | .deadline now => exact silent handleDeadline_silent

end Host

/-- Whatever happens before a shutdown, every request is answered once or still waits, no query
is written more than ten times, a startup ends once before the next begins, and what answers a
query is the response to the identifier it was last sent with, which no other request of the
session has while the identifiers last. -/
theorem requests_answered_once {Value : Type} {outside : Outside Value} {project : Project} {host : Host}
    (reached : Host.Reachable outside project host) :
    (∀ key, (host.queued.map Query.key).count key =
      host.answers.count key + (host.waiting.map Query.key).count key) ∧
    (∀ query, host.sends query ≤ 10 * host.queued.count query) ∧
    StartupsSettle host.events host.server.startup ∧
    (∀ action, host.Allowed action →
      ∀ event ∈ (host.step outside action).events.drop host.events.length, event.isResult = true →
        ∃ inbound now, action = .message inbound now ∧ host.Own inbound event) ∧
    ∀ inbound now, (host.message outside inbound now).server.session.isSome = true →
      ∀ event ∈ (host.message outside inbound now).events.drop host.events.length,
        event.key.isSome = true → host.Own inbound event := by
  have inv := Host.reachable_inv reached
  refine ⟨inv.settled, fun query => ?_, inv.startups, fun action may event mem result => ?_,
    fun inbound now lives event mem named => ?_⟩
  · have bounded := inv.bounded query
    omega
  · exact (Host.step_results inv may).drop mem result
  · exact ((Host.message_tells inv).drop mem).2 named lives

/-! ## When the identifiers run out -/

namespace Obliging

/-- A server for one file that does all it is asked. -/
def outside : Outside Unit where
  spawn _ := .ok false
  startupFailure _ message := message
  toast _ := 0
  uri _ _ := .ok ""
  read _ _ := .ok "x"
  write _ := .ok ()
  watched _ _ := []
  normalize _ _ _ := []
  initialized _ := .ok none
  quiescent _ := .ok true
  hover _ := .ok none
  found _ _ := .ok []

def project : Project := ⟨.expert, []⟩

def nth (n : Nat) : Query := ⟨n, ["a.ex"], 0, 0, "x", ""⟩

/-- The same question, in words of its own. -/
def sent (id n : Nat) : Sent := ⟨id, .hover, nth n, 0⟩

def session (nextId : Nat) (state : State) (written : List Sent) : Session :=
  ⟨.expert, false, ⟨0, "expert"⟩, nextId, .utf16, [(["a.ex"], "x", 1)], [], state, written⟩

def host (session : Session) (asked : Nat) (sent : List Sent) (events : List Event) (queued : List Query) :
    Host :=
  ⟨⟨project, some session, none, [], [["a.ex"]], false⟩, true, asked, sent, events, queued⟩

variable {nextId id asked n : Nat} {written all : List Sent} {events : List Event} {queued : List Query}

theorem request_run : SessionWork.request outside .hover (nth n) 0
    ⟨session nextId .ready written, asked, all⟩ =
      .ok () ⟨session (min (nextId + 1) maxId) (.querying nextId .hover (nth n) 0 initializeTimeout)
        (written ++ [sent nextId n]), asked + 3, all ++ [sent nextId n]⟩ := by
  have read : ∀ scene, SessionWork.readText outside (nth n).path scene =
      .ok "x" { scene with asked := scene.asked + 1 } := fun _ => rfl
  have line : (lines "x")[(nth n).line]? = some "x" := by
    change (lines "x")[0]? = some "x"
    decide
  unfold SessionWork.request SessionWork.startQuery
  rw [bind_ok (read _), line]
  rfl

theorem request_step : (host (session nextId .ready written) asked all events queued).step outside
    (.command (.request .hover (nth n)) 0) =
      host (session (min (nextId + 1) maxId) (.querying nextId .hover (nth n) 0 initializeTimeout)
        (written ++ [sent nextId n])) (asked + 3) (all ++ [sent nextId n]) events (queued ++ [nth n]) := by
  change (host (session nextId .ready written) asked all events (queued ++ [nth n])).work
    (SessionWork.request outside .hover (nth n) 0) (fun host _ => host)
    (fun host error => host.failQuery error (nth n)) = _
  have run : SessionWork.request outside .hover (nth n) 0 ((host (session nextId .ready written) asked all
    events (queued ++ [nth n])).scene (session nextId .ready written)) = _ := request_run
  refine Host.work_holds (· = _) rfl ?_
  unfold Leaves
  rw [run]
  rfl

theorem deadline_step {query : Query} :
    (host (session nextId (.querying id .hover query 0 initializeTimeout) written) asked all events
      queued).step outside (.deadline initializeTimeout) =
      host (session nextId .ready written) asked all
        (events ++ [.failed (some query.toastId) (some query.snapshotId) "expert did not respond"]) queued :=
  rfl

theorem openDocument_run :
    SessionWork.openDocument outside ["a.ex"] ⟨{ session 1 .ready [] with documents := [] }, asked, all⟩ =
      .ok () ⟨session 1 .ready [], asked + 3, all⟩ := by
  have language : languageFor ["a.ex"] = some "elixir" := by decide +kernel
  have read : ∀ scene, SessionWork.readText outside ["a.ex"] scene =
      .ok "x" { scene with asked := scene.asked + 1 } := fun _ => rfl
  have uri : ∀ scene, SessionWork.pathUri outside ["a.ex"] scene =
      .ok "" { scene with asked := scene.asked + 1 } := fun _ => rfl
  unfold SessionWork.openDocument SessionWork.syncDocument
  rw [bind_ok (read _), bind_ok (uri _), language]
  rfl

theorem ready_step : ((Host.new project).step outside (.command (.openDocument ["a.ex"]) 0)).step outside
    (.message (.message (.response (.number 0) (.ok ()))) 0) =
      host (session 1 .ready []) 8 [] [.initializing ⟨0, "expert"⟩, .ready ⟨0, "expert"⟩] [] := by
  change (host { session 1 .ready [] with documents := [] } 5 [] [.initializing ⟨0, "expert"⟩,
    .ready ⟨0, "expert"⟩] []).work (SessionWork.openDocument outside ["a.ex"]) (fun host _ => host)
      (fun host error => host.fail none none error) = _
  refine Host.work_holds (· = _) rfl ?_
  have run : SessionWork.openDocument outside ["a.ex"] ((host { session 1 .ready [] with documents := [] } 5
    [] [.initializing ⟨0, "expert"⟩, .ready ⟨0, "expert"⟩] []).scene
      { session 1 .ready [] with documents := [] }) = _ := openDocument_run
  unfold Leaves
  rw [run]
  rfl

/-- The first request on its way. -/
def first : Host :=
  host (session 2 (.querying 1 .hover (nth 0) 0 initializeTimeout) [sent 1 0]) 11 [sent 1 0]
    [.initializing ⟨0, "expert"⟩, .ready ⟨0, "expert"⟩] [nth 0]

theorem first_reached : Host.Reachable outside project first := by
  have started : Host.Reachable outside project (.new project) := .start
  have opened := Reaches.step (Action.command (.openDocument ["a.ex"]) 0) started ⟨rfl, nofun⟩
  have ready := Reaches.step (Action.message (.message (.response (.number 0) (.ok ()))) 0) opened ⟨rfl, rfl⟩
  rw [ready_step] at ready
  have asked := Reaches.step (Action.command (.request .hover (nth 0)) 0) ready ⟨rfl, nofun⟩
  rwa [request_step] at asked

/-- A session that asked this often, each time in vain. -/
theorem asked_often (n : Nat) : ∃ asked written all events queued,
    Host.Reachable outside project (host (session (min (n + 2) maxId)
      (.querying (min (n + 1) maxId) .hover (nth n) 0 initializeTimeout)
      (written ++ [sent (min (n + 1) maxId) n])) asked all events queued) ∧ written.length = n := by
  induction n with
  | zero => exact ⟨_, [], _, _, _, first_reached, rfl⟩
  | succ n ih =>
    obtain ⟨asked, written, all, events, queued, reached, length⟩ := ih
    have late := Reaches.step (Action.deadline initializeTimeout) reached ⟨rfl, rfl⟩
    rw [deadline_step] at late
    have again := Reaches.step (Action.command (.request .hover (nth (n + 1))) 0) late ⟨rfl, nofun⟩
    rw [request_step] at again
    have next : min (min (n + 2) maxId + 1) maxId = min (n + 1 + 2) maxId := by omega
    rw [next] at again
    exact ⟨_, _, _, _, _, again, by rw [List.length_append, length]; rfl⟩

theorem response_run {query : Query} :
    SessionWork.handle outside (.message (.response (.number id) (.ok ()))) 0
      ⟨session nextId (.querying id .hover query 0 initializeTimeout) written, asked, all⟩ =
        .ok (some (.hover query.toastId query.snapshotId none)) ⟨session nextId .ready written, asked, all⟩ := by
  unfold SessionWork.handle SessionWork.handleResponse
  simp only [bind, EStateM.bind, get, getThe, MonadStateOf.get]
  change (ite (RequestId.number id = .number id) _ _ : SessionWork (Option Event)) _ = _
  rw [if_pos rfl]
  rfl

theorem response_message {query : Query} :
    (host (session nextId (.querying id .hover query 0 initializeTimeout) written) asked all events
      queued).message outside (.message (.response (.number id) (.ok ()))) 0 =
        host (session nextId .ready written) asked all
          (events ++ [.hover query.toastId query.snapshotId none]) queued := by
  refine Host.work_holds (· = _) rfl ?_
  have run : SessionWork.handle outside (.message (.response (.number id) (.ok ()))) 0
      ((host (session nextId (.querying id .hover query 0 initializeTimeout) written) asked all events
        queued).scene (session nextId (.querying id .hover query 0 initializeTimeout) written)) = _ :=
    response_run
  unfold Leaves
  rw [run]
  rfl

/-- The session has two requests under the last identifier, and the response to the first of
them answers the second. -/
theorem stale_response_answers : ∃ host session, Host.Reachable outside project host ∧
    host.server.session = some session ∧
    session.sent[maxId - 1]? = some (sent maxId (maxId - 1)) ∧
    session.sent[maxId]? = some (sent maxId maxId) ∧
    ∃ inbound, inbound = .message (.response (.number maxId) (.ok ())) ∧
      ∃ event ∈ (host.message outside inbound 0).events.drop host.events.length,
        event.key = some (nth maxId).key ∧
        ∀ id operation query attempt, Host.AnsweredBy session inbound event id operation query attempt →
          ¬ Host.Sole session id := by
  obtain ⟨asked, written, all, events, queued, reached, length⟩ := asked_often (maxId - 1)
  have late := Reaches.step (Action.deadline initializeTimeout) reached ⟨rfl, rfl⟩
  rw [deadline_step] at late
  have again := Reaches.step (Action.command (.request .hover (nth maxId)) 0) late ⟨rfl, nofun⟩
  rw [request_step] at again
  have last : min (maxId - 1 + 1) maxId = maxId := by decide
  have next : min (maxId - 1 + 2) maxId = maxId := by decide
  rw [last, next] at again
  have first : (written ++ [sent maxId (maxId - 1)] ++ [sent maxId maxId])[maxId - 1]? =
      some (sent maxId (maxId - 1)) := by
    rw [List.append_assoc, ← length, List.getElem?_append_right (Nat.le_refl _), Nat.sub_self]
    rfl
  have count : (written ++ [sent maxId (maxId - 1)]).length = maxId := by
    rw [List.length_append, length]
    rfl
  have second : (written ++ [sent maxId (maxId - 1)] ++ [sent maxId maxId])[maxId]? =
      some (sent maxId maxId) := by
    rw [List.getElem?_append_right (Nat.le_of_eq count), count, Nat.sub_self]
    rfl
  refine ⟨_, _, again, rfl, first, second, _, rfl, .hover maxId "" none, ?_, rfl,
    fun id operation query attempt answered sole => ?_⟩
  · rw [response_message]
    simp only [host, List.drop_left]
    exact List.mem_singleton_self _
  · obtain ⟨deadline, waits⟩ := answered.waits
    obtain ⟨rfl, -, -, -, -⟩ := State.querying.inj waits
    have alone := sole _ _ first rfl
    rw [session, List.length_append, count] at alone
    exact absurd alone (by decide)

theorem first_answered_once :
    first.queued = [nth 0] ∧ (∀ query, first.sends query ≤ 10 * first.queued.count query) :=
  ⟨rfl, (requests_answered_once first_reached).2.1⟩

end Obliging

end ProgressiveReviewer.Lsp
