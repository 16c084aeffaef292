import ProgressiveReviewer.Lsp.Session
import Mathlib.Logic.Relation
import Mathlib.Tactic.Basic

/-! What the work of a session with a language server can do to the query in its hands, its
identifiers and what it wrote. -/

namespace ProgressiveReviewer.Lsp

open Library

/-- What the answers depend on. -/
structure Core where
  startup : ServerStartup
  state : State
  nextId : Nat
  written : List Sent
  sent : List Sent

def Scene.core (scene : Scene) : Core :=
  ⟨scene.session.startup, scene.session.state, scene.session.nextId, scene.session.sent, scene.sent⟩

namespace Core

variable (core : Core)

def into (state : State) : Core := { core with state }

/-- One more request on its way. -/
def written1 (operation : Operation) (query : Query) (attempt : Nat) : Core :=
  let sent : Sent := ⟨core.nextId, operation, query, attempt⟩
  { core with
    nextId := min (core.nextId + 1) maxId
    written := core.written ++ [sent]
    sent := core.sent ++ [sent] }

def waits (operation : Operation) (query : Query) (attempt : Nat) (deadline : Instant) : Core :=
  (core.written1 operation query attempt).into (.querying core.nextId operation query attempt deadline)

end Core

namespace State

/-- Before the server is ready. -/
def isStarting : State → Bool
  | initializing _ _ | quiescing _ => true
  | _ => false

/-- Until it shuts down. -/
def isLive : State → Bool
  | shuttingDown _ _ | stopped => false
  | _ => true

end State

/-- The request that an event answers, by the names it was given. -/
def Event.key : Event → Option (ToastId × String)
  | hover toastId snapshotId _ | locations toastId _ snapshotId _ _
  | failed (some toastId) (some snapshotId) _ => some (toastId, snapshotId)
  | _ => none

def Query.key (query : Query) : ToastId × String := (query.toastId, query.snapshotId)

/-- What an input leads to, when the work on it returns. -/
inductive Handled (core : Core) : Option Event → Core → Prop
  | nothing : Handled core none core
  | quiesces {deadline : Instant} (starting : core.state.isStarting = true) :
      Handled core none (core.into (.quiescing deadline))
  | ready (starting : core.state.isStarting = true) :
      Handled core (some (.ready core.startup)) (core.into .ready)
  | modified {id : Nat} {operation : Operation} {query : Query} {attempt : Nat}
      {deadline retryAt : Instant} (waits : core.state = .querying id operation query attempt deadline)
      (again : attempt < 9) :
      Handled core none (core.into (.retrying operation query (attempt + 1) retryAt))
  | answered {id : Nat} {operation : Operation} {query : Query} {attempt : Nat} {deadline : Instant}
      {event : Event} (waits : core.state = .querying id operation query attempt deadline)
      (named : event.key = some query.key) : Handled core (some event) (core.into .ready)
  | repeated {operation : Operation} {query : Query} {attempt : Nat} {deadline retryAt : Instant}
      (retries : core.state = .retrying operation query attempt retryAt) :
      Handled core none (core.waits operation query attempt deadline)

theorem Handled.back {core : Core} {state : State} (same : core.state = state) :
    Handled core none (core.into state) := by
  subst same
  exact .nothing

/-- What work that fails leaves. -/
inductive Lost (core : Core) : Core → Prop
  | nothing : Lost core core
  | startup (starting : core.state.isStarting = true) : Lost core (core.into .stopped)
  | repeated {operation : Operation} {query : Query} {attempt : Nat} {retryAt : Instant}
      (retries : core.state = .retrying operation query attempt retryAt) :
      Lost core (core.written1 operation query attempt)

namespace SessionWork

variable {Value : Type} {outside : Outside Value} {α : Type} {scene : Scene}

/-- Work that leaves the query, the identifiers and the requests as they are. -/
def Quiet (work : SessionWork α) : Prop := Moves (fun s s' => s'.core = s.core) work

theorem Quiet.core {work : SessionWork α} (quiet : Quiet work) (scene : Scene) :
    (stateOf (work scene)).core = scene.core := by
  have kept : ∀ s s' : Scene, Relation.ReflTransGen (fun s s' : Scene => s'.core = s.core) s s' →
      s'.core = s.core := by
    intro s s' moves
    induction moves with
    | refl => rfl
    | tail _ same ih => exact same.trans ih
  exact kept _ _ (quiet scene)

theorem Quiet.leaves {work : SessionWork α} (quiet : Quiet work) {post : α → Scene → Prop}
    {failed : String → Scene → Prop} (ok : ∀ a s, s.core = scene.core → post a s)
    (error : ∀ e s, s.core = scene.core → failed e s) : Leaves work post failed scene := by
  have same := quiet.core scene
  unfold Leaves
  cases run : work scene with
  | ok a s =>
    rw [run] at same
    exact ok a s same
  | error e s =>
    rw [run] at same
    exact error e s same

theorem Quiet.bind {β : Type} {work : SessionWork α} {next : α → SessionWork β} (first : Quiet work)
    (rest : ∀ a, Quiet (next a)) : Quiet (work >>= next) := Moves.bind first rest

theorem quiet_pure {a : α} : Quiet (pure a : SessionWork α) := moves_pure a

theorem quiet_throw {error : String} : Quiet (throw error : SessionWork α) := moves_throw error

theorem quiet_get : Quiet (get : SessionWork Scene) := moves_get

theorem quiet_found {result : Except String α} : Quiet (found result) := moves_found result

theorem quiet_modify {change : Scene → Scene} (same : ∀ s, (change s).core = s.core) :
    Quiet (modify change) := moves_modify same

theorem quiet_ask {answer : Nat → α} : Quiet (ask answer) := by
  refine quiet_get.bind fun _ => ?_
  exact Quiet.bind (quiet_modify fun _ => by rfl) fun _ => quiet_pure

@[simp] theorem leaves_ask {answer : Nat → α} {post : α → Scene → Prop} {failed : String → Scene → Prop} :
    Leaves (ask answer) post failed scene ↔
      post (answer scene.asked) { scene with asked := scene.asked + 1 } := .rfl

@[simp] theorem leaves_setState {state : State} {post : Unit → Scene → Prop}
    {failed : String → Scene → Prop} :
    Leaves (setState state) post failed scene ↔ post () { scene with session.state := state } := .rfl

theorem quiet_write : Quiet (write outside) := by
  refine quiet_get.bind fun _ => ?_
  refine quiet_ask.bind fun result => ?_
  cases result
  · exact quiet_throw
  · exact quiet_pure

theorem quiet_pathUri {path : Path} : Quiet (pathUri outside path) :=
  quiet_ask.bind fun _ => quiet_found

theorem quiet_readText {path : Path} : Quiet (readText outside path) := by
  refine quiet_ask.bind fun result => ?_
  cases result
  · exact quiet_throw
  · exact quiet_pure

theorem quiet_syncDocument {path : Path} {text : String} : Quiet (syncDocument outside path text) := by
  refine quiet_get.bind fun scene => ?_
  split
  · split
    · exact quiet_pure
    · exact Quiet.bind (quiet_modify fun _ => by rfl) fun _ => quiet_write
  · split
    · exact quiet_throw
    · exact quiet_write.bind fun _ => quiet_modify fun _ => by rfl

theorem quiet_openDocument {path : Path} : Quiet (openDocument outside path) :=
  quiet_readText.bind fun _ => quiet_pathUri.bind fun _ => quiet_syncDocument

theorem quiet_fileChanged {change : FileChange} : Quiet (fileChanged outside change) := by
  refine quiet_get.bind fun scene => ?_
  dsimp only
  refine Quiet.bind (quiet_modify fun _ => by rfl) fun _ => ?_
  split
  · exact quiet_pure
  · refine quiet_ask.bind fun text => quiet_ask.bind fun uri => ?_
    split
    · exact quiet_syncDocument
    · exact quiet_pure

theorem quiet_forM {γ : Type} {body : γ → SessionWork PUnit} (each : ∀ a, Quiet (body a)) :
    ∀ list : List γ, Quiet (list.forM body)
  | [] => quiet_pure
  | first :: rest => (each first).bind fun _ => quiet_forM each rest

theorem quiet_filesChanged {changes : List FileChange} : Quiet (filesChanged outside changes) := by
  refine (quiet_forM (fun _ => quiet_fileChanged) changes).bind fun _ => quiet_ask.bind fun events => ?_
  split
  · exact quiet_pure
  · exact quiet_write

theorem queryLocations_key {operation : Operation} {query : Query} {result : Except String Value}
    {unindexedFiles : Nat} :
    Leaves (queryLocations outside operation query result unindexedFiles)
      (fun result s => (∀ event, result = .ok event → event.key = some query.key) ∧ s.core = scene.core)
      (fun _ _ => False) scene := by
  unfold queryLocations
  simp only [leaves_bind, leaves_get]
  cases result.bind (outside.found operation) with
  | error error => exact ⟨fun _ same => (by cases same), rfl⟩
  | ok locations =>
    simp only [leaves_bind, leaves_ask, leaves_pure]
    refine ⟨?_, rfl⟩
    rintro event ⟨⟩
    rfl

/-- The event that answers a query carries its names. -/
theorem queryEvent_key {operation : Operation} {query : Query} {result : Except String Value} :
    Leaves (queryEvent outside operation query result)
      (fun event s => event.key = some query.key ∧ s.core = scene.core) (fun _ _ => False) scene := by
  have named : Leaves (queryResult outside operation query result)
      (fun result s => (∀ event, result = .ok event → event.key = some query.key) ∧ s.core = scene.core)
      (fun _ _ => False) scene := by
    cases operation with
    | hover =>
      refine ⟨fun event found => ?_, rfl⟩
      obtain ⟨markdown, -, rfl⟩ := except_map_eq_ok.mp found
      rfl
    | definition | typeDefinition | references => exact queryLocations_key
  unfold queryEvent
  rw [leaves_bind]
  refine named.mono (fun result s ⟨named, same⟩ => ?_) fun _ _ => id
  cases result with
  | ok event => exact ⟨named event rfl, same⟩
  | error message => exact ⟨rfl, same⟩

/-! ## Sending -/

theorem writeRequest_core {operation : Operation} {query : Query} {attempt : Nat} {now : Instant} :
    Leaves (writeRequest outside operation query attempt now)
      (fun _ s => s.core = scene.core.waits operation query attempt (now + initializeTimeout))
      (fun _ s => s.core = scene.core.written1 operation query attempt) scene := by
  unfold writeRequest
  simp only [leaves_bind, leaves_get, leaves_modify, leaves_setState]
  refine quiet_write.leaves (fun _ s same => ?_) fun _ s same => same
  exact congrArg (Core.into · (.querying scene.session.nextId operation query attempt
    (now + initializeTimeout))) same

theorem startQuery_core {operation : Operation} {query : Query} {attempt : Nat} {now : Instant} :
    Leaves (startQuery outside operation query attempt now)
      (fun _ s => s.core = scene.core.waits operation query attempt (now + initializeTimeout))
      (fun _ s => s.core = scene.core ∨ s.core = scene.core.written1 operation query attempt) scene := by
  unfold startQuery
  rw [leaves_bind]
  refine quiet_readText.leaves (fun text s read => ?_) fun _ s same => .inl same
  split
  · exact .inl read
  · split
    · exact .inl read
    · rw [leaves_bind]
      refine quiet_pathUri.leaves (fun _ s resolved => ?_) fun _ s same => .inl (same.trans read)
      rw [leaves_bind]
      refine quiet_syncDocument.leaves (fun _ s synced => ?_)
        fun _ s same => .inl (same.trans (resolved.trans read))
      have same := synced.trans (resolved.trans read)
      simp only [leaves_bind, leaves_get, leaves_found]
      refine ⟨fun _ _ => ?_, fun _ _ => .inl same⟩
      rw [← same]
      exact writeRequest_core.mono (fun _ _ => id) fun _ _ => .inr

theorem initializeSession_core {project : Project} {now : Instant} :
    Leaves (initializeSession outside project now)
      (fun _ s => ∃ deadline, s.core = scene.core.into (.initializing 0 deadline))
      (fun _ _ => True) scene := by
  unfold initializeSession
  rw [leaves_bind]
  refine quiet_pathUri.leaves (fun _ s resolved => ?_) fun _ _ _ => trivial
  rw [leaves_bind]
  refine quiet_write.leaves (fun _ s written => ?_) fun _ _ _ => trivial
  simp only [leaves_bind, leaves_get, leaves_setState]
  exact ⟨_, congrArg (Core.into · _) (written.trans resolved)⟩

/-! ## Handling -/

theorem handleResponse_core {id : RequestId} {result : Except String Value} {now : Instant}
    (live : scene.session.state.isLive = true) :
    Leaves (handleResponse outside id result now) (fun event s => Handled scene.core event s.core)
      (fun _ s => Lost scene.core s.core) scene := by
  unfold handleResponse
  simp only [leaves_bind, leaves_get, leaves_setState]
  cases state : scene.session.state with
  | initializing waiting deadline =>
    have starting : scene.core.state.isStarting = true := by
      simp only [Scene.core, state]
      rfl
    dsimp only
    split
    · simp only [leaves_bind, leaves_found, leaves_modify]
      refine ⟨fun encoding _ => ?_, fun _ _ => .startup starting⟩
      refine quiet_write.leaves (fun _ s same => ?_) fun _ s same => ?_
      · have into : ∀ state, s.core.into state = scene.core.into state := fun state => by
          rw [same]
          rfl
        split
        · have quiesces : Handled scene.core none (s.core.into (.quiescing (now + startupTimeout))) := by
            rw [into]
            exact .quiesces starting
          exact quiesces
        · have ready : Handled scene.core (some (.ready scene.core.startup)) (s.core.into .ready) := by
            rw [into]
            exact .ready starting
          exact ready
      · rw [same]
        exact .startup starting
    · exact Handled.back state
  | querying waiting operation query attempt deadline =>
    dsimp only
    split
    · split
      · next modified =>
        exact Handled.modified state modified.2
      · simp only [leaves_bind, leaves_setState]
        refine queryEvent_key.mono (fun event s kept => ?_) fun _ _ => False.elim
        obtain ⟨named, same⟩ := kept
        rw [leaves_pure, same]
        exact .answered state named
    · exact Handled.back state
  | shuttingDown waiting deadline => rw [state] at live; cases live
  | stopped => rw [state] at live; cases live
  | quiescing deadline => exact Handled.back state
  | ready => exact Handled.back state
  | retrying operation query attempt retryAt => exact Handled.back state

theorem handle_core {inbound : Inbound Value} {now : Instant}
    (live : scene.session.state.isLive = true) :
    Leaves (handle outside inbound now) (fun event s => Handled scene.core event s.core)
      (fun _ s => Lost scene.core s.core) scene := by
  unfold handle
  match inbound with
  | .message (.request _) =>
    simp only [leaves_bind]
    refine quiet_write.leaves (fun _ s same => ?_) fun _ s same => ?_
    · rw [leaves_pure, same]
      exact .nothing
    · rw [same]
      exact .nothing
  | .message (.notification method params) =>
    simp only [leaves_bind, leaves_get]
    split
    · next deadline state =>
      have starting : scene.core.state.isStarting = true := by
        simp only [Scene.core, state]
        rfl
      split
      · exact .nothing
      · split
        · exact .nothing
        · exact .ready starting
        · exact .nothing
    · exact .nothing
  | .message (.response id result) => exact handleResponse_core live
  | .failed error => exact .nothing

theorem handleDeadline_core {now : Instant} (live : scene.session.state.isLive = true) :
    Leaves (handleDeadline outside now) (fun event s => Handled scene.core event s.core)
      (fun _ s => Lost scene.core s.core) scene := by
  unfold handleDeadline
  simp only [leaves_bind, leaves_get, leaves_setState]
  cases state : scene.session.state with
  | initializing id deadline =>
    have starting : scene.core.state.isStarting = true := by
      simp only [Scene.core, state]
      rfl
    dsimp only
    split
    · exact .startup starting
    · exact Handled.back state
  | quiescing deadline =>
    have starting : scene.core.state.isStarting = true := by
      simp only [Scene.core, state]
      rfl
    dsimp only
    split
    · exact .startup starting
    · exact Handled.back state
  | retrying operation query attempt retryAt =>
    simp only [leaves_bind, leaves_setState]
    split
    · have same : scene.core.into (.retrying operation query attempt retryAt) = scene.core := by
        rw [← state]
        rfl
      rw [leaves_bind]
      refine startQuery_core.mono (fun _ s waits => ?_) fun _ s lost => ?_
      · rw [leaves_pure, waits.trans (congrArg (Core.waits · operation query attempt _) same)]
        exact .repeated state
      · rcases lost with lost | lost
        · rw [lost.trans same]
          exact .nothing
        · rw [lost.trans (congrArg (Core.written1 · operation query attempt) same)]
          exact .repeated state
    · exact Handled.back state
  | querying id operation query attempt deadline =>
    dsimp only
    split
    · exact .answered state rfl
    · exact Handled.back state
  | shuttingDown waiting deadline => rw [state] at live; cases live
  | stopped => rw [state] at live; cases live
  | ready => exact Handled.back state

/-- The query in a session's hands waits for this message. -/
def AwaitedBy (state : State) (inbound : Inbound Value) : Prop :=
  ∃ (id : Nat) (operation : Operation) (query : Query) (attempt : Nat) (deadline : Instant)
    (result : Except String Value), state = .querying id operation query attempt deadline ∧
      inbound = .message (.response (.number id) result)

theorem leaves_true {work : SessionWork α} : Leaves work (fun _ _ => True) (fun _ _ => True) scene := by
  unfold Leaves
  split <;> trivial

theorem none_keyed {P : Prop} : ((none : Option Event).bind Event.key).isSome = true → P :=
  fun keyed => by cases keyed

/-- A message answers a query only as the response to the identifier that the query waits
for. -/
theorem handle_own {inbound : Inbound Value} {now : Instant} :
    Leaves (handle outside inbound now)
      (fun event _ => (event.bind Event.key).isSome = true → AwaitedBy scene.session.state inbound)
      (fun _ _ => True) scene := by
  unfold handle
  cases inbound with
  | failed error => trivial
  | message message =>
    cases message with
    | request method =>
      simp only [leaves_bind]
      exact quiet_write.leaves (fun _ _ _ => none_keyed) fun _ _ _ => trivial
    | notification method params =>
      simp only [leaves_bind, leaves_get]
      split
      · split
        · exact none_keyed
        · split
          · trivial
          · exact none_keyed
          · exact none_keyed
      · exact none_keyed
    | response id result =>
      unfold handleResponse
      simp only [leaves_bind, leaves_get, leaves_setState]
      cases state : scene.session.state with
      | querying waiting operation query attempt deadline =>
        dsimp only
        split
        · next own =>
          subst own
          have awaited : AwaitedBy (.querying waiting operation query attempt deadline)
              (.message (.response (.number waiting) result)) := ⟨_, _, _, _, _, _, rfl, rfl⟩
          split
          · exact fun _ => awaited
          · exact leaves_true.mono (fun _ _ _ _ => awaited) fun _ _ => id
        · exact none_keyed
      | initializing waiting deadline =>
        dsimp only
        split
        · simp only [leaves_bind, leaves_found, leaves_modify]
          refine ⟨fun encoding _ => ?_, fun _ _ => trivial⟩
          refine quiet_write.leaves (fun _ s same => ?_) fun _ _ _ => trivial
          split <;> exact none_keyed
        · exact none_keyed
      | shuttingDown waiting deadline =>
        dsimp only
        split
        · simp only [leaves_bind]
          exact quiet_write.leaves (fun _ _ _ => none_keyed) fun _ _ _ => trivial
        · exact none_keyed
      | stopped | quiescing deadline | ready | retrying operation query attempt retryAt => exact none_keyed

end SessionWork

end ProgressiveReviewer.Lsp
