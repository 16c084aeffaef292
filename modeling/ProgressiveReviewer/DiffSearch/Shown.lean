import ProgressiveReviewer.DiffSearch.Refreshes

/-! What a search shows over any run of inputs, with results that arrive late or out of order. -/

namespace ProgressiveReviewer.DiffSearch

open Library Hunks

/-- One input of the search, or another viewer's request. -/
inductive Event where
  | beginTyping (origin : Location) (documents : List SearchedDocument)
  | findWord (word : List Char) (origin : Location) (documents : List SearchedDocument)
  | edit (edit : Edit) (documents : List SearchedDocument)
  | step (direction : Direction) (current : Option Location)
  | clear
  | refresh (documents : List SearchedDocument)
  | documentsLoaded (documents : List SearchedDocument)
  | waitForRepository
  | repositoryLoaded
  | resume (documents : List SearchedDocument)
  | complete (results : Results) (documents : List SearchedDocument)
  | retain (results : Results) (documents : List SearchedDocument)
  /-- Another viewer hands a request to the worker. -/
  | elsewhere (query : List Char) (documents : List Address)

/-- A search with the next identity of the process, the requests handed to the worker so far,
what the search asked of its viewer, and the documents of its last refresh. -/
structure Scene where
  search : Search
  next : Nat
  issued : List Request
  asked : List Intent
  refreshed : List SearchedDocument

namespace Scene

variable (engine : Engine) (rowsAt : Address → List Bytes)

def new (next : Nat) : Scene := ⟨⟨none⟩, next, [], [], []⟩

variable (scene : Scene)

def done : Event → Done
  | .beginTyping origin documents =>
    scene.search.begin engine rowsAt [] true origin documents scene.next
  | .findWord word origin documents =>
    scene.search.begin engine rowsAt word false origin documents scene.next
  | .edit edit documents => scene.search.edit engine rowsAt edit documents scene.next
  | .step direction current => ⟨scene.search, scene.search.step direction current, scene.next⟩
  | .clear => scene.search.clear scene.next
  | .refresh documents => scene.search.refresh engine rowsAt documents scene.next
  | .documentsLoaded documents => scene.search.documentsLoaded engine rowsAt documents scene.next
  | .waitForRepository => ⟨scene.search.waitForRepository, [], scene.next⟩
  | .repositoryLoaded => ⟨scene.search.repositoryLoaded, [], scene.next⟩
  | .resume documents => scene.search.resume engine rowsAt documents scene.next
  | .complete results documents =>
    scene.search.complete engine rowsAt results documents scene.next
  | .retain results documents => ⟨scene.search.retain results documents, [], scene.next⟩
  | .elsewhere _ _ => ⟨scene.search, [], scene.next + 1⟩

/-- The documents with which an input recomputes the matches, if it does. -/
def refreshes : Event → Option (List SearchedDocument)
  | .beginTyping _ documents | .findWord _ _ documents => some documents
  | .edit edit documents =>
    if scene.search.active.any (·.editing) ∧ edit ≠ .accept ∧ edit ≠ .cancel then some documents
    else none
  | .refresh documents | .documentsLoaded documents =>
    if scene.search.active.isSome then some documents else none
  | .resume documents =>
    if scene.search.active.any (·.pending.isNone) then some documents else none
  | .complete results documents =>
    match scene.search.awaited results documents with
    | some (_, .stale) => some documents
    | _ => none
  | .step .. | .clear | .waitForRepository | .repositoryLoaded | .retain .. | .elsewhere .. => none

/-- The requests that an input hands to the worker. -/
def requested (next : Nat) (event : Event) (intents : List Intent) : List Request :=
  (match event with
    | .elsewhere query documents => [⟨next, query, documents⟩]
    | _ => []) ++ intents.filterMap fun intent =>
      match intent with
      | .request request => some request
      | _ => none

def take (event : Event) : Scene :=
  let done := scene.done engine rowsAt event
  { search := done.search
    next := done.next
    issued := scene.issued ++ requested scene.next event done.intents
    asked := scene.asked ++ done.intents
    refreshed := (scene.refreshes event).getD scene.refreshed }

/-- Results are those of a request handed to the worker. -/
def Allowed : Event → Prop
  | .complete results _ | .retain results _ =>
    ∃ request ∈ scene.issued, results = request.results engine rowsAt
  | _ => True

inductive Reachable : Scene → Prop where
  | new (next : Nat) : Reachable (new next)
  | take {scene : Scene} {event : Event} : Reachable scene → scene.Allowed engine rowsAt event →
      Reachable (scene.take engine rowsAt event)

end Scene

/-! One input. -/

/-- A request to the worker or its cancellation. -/
def Intent.toWorker : Intent → Bool
  | .request _ | .cancelRequest => true
  | _ => false

variable {engine : Engine} {rowsAt : Address → List Bytes} {search : ActiveSearch}
  {documents old : List SearchedDocument} {next : Nat}

/-- The intents that the worker gets to see. -/
def workerIntents (intents : List Intent) : List Intent := intents.filter Intent.toWorker

/-- What an input does to a search whose viewer refreshed some documents last. -/
structure Search.Goes (engine : Engine) (rowsAt : Address → List Bytes) (before : Search)
    (refreshed : List SearchedDocument) (next : Nat) (done : Done) : Prop where
  shows : ∀ active, done.search.active = some active → active.Shows engine rowsAt refreshed
  le : next ≤ done.next
  /-- A request that is handed out is new, or awaited already. -/
  fresh : ∀ request, .request request ∈ done.intents → (request.id = next ∧ next < done.next) ∨
    before.active.bind (·.pending) = some request
  single : ∀ first second, .request first ∈ done.intents → .request second ∈ done.intents →
    first = second
  /-- An awaited request is what the worker got to see last. -/
  handed : ∀ request, done.search.active.bind (·.pending) = some request →
    (workerIntents done.intents).getLast? = some (.request request) ∨
      workerIntents done.intents = [] ∧ before.active.bind (·.pending) = some request

@[simp] theorem workerIntents_append (intents more : List Intent) :
    workerIntents (intents ++ more) = workerIntents intents ++ workerIntents more :=
  List.filter_append ..

@[simp] theorem workerIntents_jump (reached : Option Location) (remember : Bool) :
    workerIntents (reached.map (Intent.jump · remember)).toList = [] := by
  cases reached <;> rfl

@[simp] theorem workerIntents_status (files : Bool) : workerIntents [.status files] = [] := rfl

@[simp] theorem workerIntents_nil : workerIntents [] = [] := rfl

theorem mem_workerIntents {intents : List Intent} {request : Request} :
    .request request ∈ workerIntents intents ↔ .request request ∈ intents := by
  simp [workerIntents, Intent.toWorker]

@[simp] theorem workerIntents_jumpFromOrigin (search : ActiveSearch) :
    workerIntents search.jumpFromOrigin.toList = [] :=
  workerIntents_jump ..

@[simp] theorem workerIntents_step (search : ActiveSearch) (direction : Direction)
    (current : Location) : workerIntents (search.step direction current).toList = [] :=
  workerIntents_jump ..

namespace Search

variable {before : Search}

/-- An input that recomputes the matches. -/
theorem goes_refreshes {after : ActiveSearch × Option Intent × Nat} {final : ActiveSearch}
    (front : List Intent) {rest : List Intent}
    (refreshes : search.Refreshes engine rowsAt documents next after)
    (query : final.query = after.1.query) (pending : final.pending = after.1.pending)
    (matched : final.matched = after.1.matched) (shown : final.matches = after.1.matches)
    (led : ∀ intent ∈ front, intent = .cancelRequest) (quiet : workerIntents rest = [])
    (kept : search.pending = none ∨
      before.active.bind (·.pending) = search.pending ∧ front = []) :
    before.Goes engine rowsAt documents next
      ⟨⟨some final⟩, front ++ after.2.1.toList ++ rest, after.2.2⟩ := by
  have given : ∀ request, .request request ∈ front ++ after.2.1.toList ++ rest →
      after.2.1 = some (.request request) := by
    intro request mem
    rcases List.mem_append.mp mem with mem | own
    · rcases List.mem_append.mp mem with own | own
      · exact nomatch led _ own
      · exact Option.mem_toList.mp own
    · have worker := mem_workerIntents.mpr own
      rw [quiet] at worker
      cases worker
  refine ⟨?_, refreshes.le, fun request mem => Or.inl (refreshes.fresh request (given request mem)),
    ?_, ?_⟩
  · intro active same
    obtain rfl := Option.some.inj same
    exact refreshes.shows.congr query pending matched shown
  · intro first second mem other
    have same := (given first mem).symm.trans (given second other)
    cases same
    rfl
  · intro request awaits
    rw [Option.bind_some, pending] at awaits
    rcases refreshes.handed request awaits with asked | ⟨silent, awaited⟩
    · refine Or.inl ?_
      rw [asked, workerIntents_append, workerIntents_append, quiet, List.append_nil]
      exact List.getLast?_concat
    · rcases kept with idle | ⟨same, rfl⟩
      · exact nomatch idle.symm.trans awaited
      · refine Or.inr ⟨?_, same.trans awaited⟩
        rw [silent, workerIntents_append, quiet]
        rfl

/-- An input that leaves the matches alone. -/
theorem goes_quiet {after : Search} {intents : List Intent} {refreshed : List SearchedDocument}
    (shows : ∀ active, after.active = some active → active.Shows engine rowsAt refreshed)
    (quiet : ∀ request, .request request ∉ intents)
    (handed : ∀ request, after.active.bind (·.pending) = some request →
      workerIntents intents = [] ∧ before.active.bind (·.pending) = some request) :
    before.Goes engine rowsAt refreshed next ⟨after, intents, next⟩ :=
  ⟨shows, Nat.le_refl _, fun request mem => absurd mem (quiet request),
    fun first _ mem _ => absurd mem (quiet first), fun request awaits => Or.inr (handed request awaits)⟩

theorem cancelPending_led : ∀ intent ∈ before.cancelPending, intent = .cancelRequest := by
  intro intent mem
  unfold cancelPending at mem
  split at mem
  · exact List.mem_singleton.mp mem
  · cases mem

theorem begin_goes (query : List Char) (editing : Bool) (origin : Location)
    (documents : List SearchedDocument) (next : Nat) :
    before.Goes engine rowsAt documents next
      (before.begin engine rowsAt query editing origin documents next) := by
  let started : ActiveSearch := ⟨query, origin, editing, false, [], none, none, false⟩
  have idle : started.Shows engine rowsAt [] := ActiveSearch.shows_idle rfl rfl rfl
  have refreshes := ActiveSearch.refreshes_refresh started query documents next idle
  rw [begin]
  generalize started.refresh engine rowsAt documents next = after at refreshes ⊢
  obtain ⟨refreshed, intent, later⟩ := after
  dsimp only
  rw [List.append_assoc]
  refine goes_refreshes _ refreshes rfl rfl rfl rfl cancelPending_led ?_ (Or.inl rfl)
  rw [workerIntents_append]
  split_ifs <;> simp

section Active

variable {active : ActiveSearch} (held : before.active = some active)
  (shows : active.Shows engine rowsAt old)

include held shows

theorem requery_goes (query : List Char) (documents : List SearchedDocument) (next : Nat) :
    before.Goes engine rowsAt documents next
      (requery engine rowsAt { active with query := query } documents next) := by
  have refreshes :=
    ActiveSearch.refreshes_refresh { active with query := query } active.query documents next shows
  rw [requery]
  generalize ActiveSearch.refresh .. = after at refreshes ⊢
  obtain ⟨refreshed, intent, later⟩ := after
  dsimp only
  rw [List.append_assoc]
  refine goes_refreshes [] refreshes rfl rfl rfl rfl (fun _ none => (nomatch none)) ?_
    (Or.inr ⟨by rw [held]; rfl, rfl⟩)
  simp

theorem refresh_goes (documents : List SearchedDocument) (next : Nat) :
    before.Goes engine rowsAt documents next (before.refresh engine rowsAt documents next) := by
  have refreshes := ActiveSearch.refreshes_refresh active active.query documents next shows
  rw [refresh, held]
  dsimp only
  generalize ActiveSearch.refresh .. = after at refreshes ⊢
  obtain ⟨refreshed, intent, later⟩ := after
  rw [← List.append_nil intent.toList]
  exact goes_refreshes [] refreshes rfl rfl rfl rfl (fun _ none => (nomatch none)) rfl
    (Or.inr ⟨by rw [held]; rfl, rfl⟩)

theorem documentsLoaded_goes (documents : List SearchedDocument) (next : Nat) :
    before.Goes engine rowsAt documents next
      (before.documentsLoaded engine rowsAt documents next) := by
  have refreshes := ActiveSearch.refreshes_refresh active active.query documents next shows
  rw [documentsLoaded, held]
  dsimp only
  generalize ActiveSearch.refresh .. = after at refreshes ⊢
  obtain ⟨refreshed, intent, later⟩ := after
  refine goes_refreshes [] refreshes rfl rfl rfl rfl (fun _ none => (nomatch none)) ?_
    (Or.inr ⟨by rw [held]; rfl, rfl⟩)
  dsimp only
  split_ifs <;> simp

theorem setWaiting_goes (waiting : Bool) (next : Nat) :
    before.Goes engine rowsAt old next ⟨before.setWaiting waiting, [], next⟩ := by
  refine goes_quiet ?_ (fun _ none => (nomatch none)) ?_
  · intro other same
    rw [setWaiting, held] at same
    obtain rfl := Option.some.inj same
    exact shows.congr rfl rfl rfl rfl
  · intro request awaits
    rw [setWaiting, held] at awaits
    exact ⟨rfl, by rw [held]; exact awaits⟩

theorem accept_goes (next : Nat) :
    before.Goes engine rowsAt old next
      ⟨⟨some { active with editing := false }⟩, [.status false], next⟩ := by
  refine goes_quiet ?_ (by simp) ?_
  · intro other same
    obtain rfl := Option.some.inj same
    exact shows.congr rfl rfl rfl rfl
  · intro request awaits
    exact ⟨rfl, by rw [held]; exact awaits⟩

end Active

theorem inactive_goes (front : List Intent) (led : ∀ intent ∈ front, intent = .cancelRequest)
    (jump : Option Intent) (quiet : workerIntents jump.toList = [])
    (refreshed : List SearchedDocument) (next : Nat) :
    before.Goes engine rowsAt refreshed next ⟨⟨none⟩, front ++ jump.toList ++ [.status true], next⟩ := by
  refine goes_quiet (fun _ none => (nomatch none)) ?_ (fun _ none => (nomatch none))
  intro request mem
  rcases List.mem_append.mp mem with mem | own
  · rcases List.mem_append.mp mem with own | own
    · exact nomatch led _ own
    · have worker := mem_workerIntents.mpr own
      rw [quiet] at worker
      cases worker
  · exact nomatch List.mem_singleton.mp own

theorem cancel_goes (refreshed : List SearchedDocument) (next : Nat) :
    before.Goes engine rowsAt refreshed next (before.cancel next) := by
  refine inactive_goes _ cancelPending_led _ ?_ refreshed next
  cases before.active <;> rfl

theorem clear_goes (refreshed : List SearchedDocument) (next : Nat) :
    before.Goes engine rowsAt refreshed next (before.clear next) := by
  rw [clear, ← List.append_nil before.cancelPending]
  exact inactive_goes _ cancelPending_led none rfl refreshed next

theorem same_goes {refreshed : List SearchedDocument}
    (shows : ∀ active, before.active = some active → active.Shows engine rowsAt refreshed)
    (intents : List Intent) (quiet : workerIntents intents = []) (next : Nat) :
    before.Goes engine rowsAt refreshed next ⟨before, intents, next⟩ := by
  refine goes_quiet shows (fun request mem => ?_) fun _ awaits => ⟨quiet, awaits⟩
  have worker := mem_workerIntents.mpr mem
  rw [quiet] at worker
  cases worker

theorem awaited_eq_some {results : Results} {active : ActiveSearch} {freshness : Freshness} :
    before.awaited results documents = some (active, freshness) ↔
      before.active = some active ∧ ∃ request, active.pending = some request ∧
        request.id = results.id ∧
          freshness = if request.documents = texts documents then .current else .stale := by
  simp only [awaited, Option.bind_eq_bind, Option.bind_eq_some_iff, Option.filter_eq_some_iff,
    Option.pure_def, Option.some.injEq, Prod.mk.injEq, decide_eq_true_eq]
  constructor
  · rintro ⟨_, held, request, ⟨awaits, same⟩, rfl, rfl⟩
    exact ⟨held, request, awaits, same, rfl⟩
  · rintro ⟨held, request, awaits, same, rfl⟩
    exact ⟨active, held, request, ⟨awaits, same⟩, rfl, rfl⟩

section Awaited

variable {results : Results} {active : ActiveSearch}
  (shows : ∀ active, before.active = some active → active.Shows engine rowsAt old)

include shows

theorem complete_stale_goes (awaited : before.awaited results documents = some (active, .stale))
    (next : Nat) :
    before.Goes engine rowsAt documents next
      (before.complete engine rowsAt results documents next) := by
  have held := (awaited_eq_some.mp awaited).1
  have refreshes :=
    ActiveSearch.refreshes_refresh active active.query documents next (shows active held)
  rw [complete, awaited]
  dsimp only
  generalize ActiveSearch.refresh .. = after at refreshes ⊢
  obtain ⟨refreshed, intent, later⟩ := after
  rw [← List.append_nil intent.toList]
  exact goes_refreshes [] refreshes rfl rfl rfl rfl (fun _ none => (nomatch none)) rfl
    (Or.inr ⟨by rw [held]; rfl, rfl⟩)

/-- Results that are accepted are those of the request that is awaited. -/
theorem accepted_goes (awaited : before.awaited results documents = some (active, .current))
    (own : ∀ request, before.active.bind (·.pending) = some request → request.id = results.id →
      results = request.results engine rowsAt)
    (intents : List Intent) (quiet : workerIntents intents = []) (next : Nat) :
    before.Goes engine rowsAt old next ⟨⟨some (active.accept results documents)⟩, intents, next⟩ := by
  obtain ⟨held, request, awaits, same, fresh⟩ := awaited_eq_some.mp awaited
  have current : request.documents = texts documents := by
    by_contra other
    rw [if_neg other] at fresh
    cases fresh
  refine goes_quiet ?_ (fun request mem => ?_) (fun _ none => (nomatch none))
  · intro other taken
    obtain rfl := Option.some.inj taken
    rw [own request (by rw [held]; exact awaits) same]
    exact ActiveSearch.shows_accept (shows active held) awaits current
  · have worker := mem_workerIntents.mpr mem
    rw [quiet] at worker
    cases worker

theorem dropped_goes (awaited : before.awaited results documents = some (active, .stale))
    (next : Nat) :
    before.Goes engine rowsAt old next
      ⟨⟨some { active with pending := none, matched := none }⟩, [], next⟩ := by
  obtain ⟨held, request, awaits, -⟩ := awaited_eq_some.mp awaited
  refine goes_quiet ?_ (fun _ none => (nomatch none)) (fun _ none => (nomatch none))
  intro other taken
  obtain rfl := Option.some.inj taken
  exact ActiveSearch.shows_idle rfl rfl ((shows active held).awaits request awaits).2.1

end Awaited

end Search

/-! Any run. -/

namespace Scene

variable (scene : Scene)

/-- What every scene keeps to. -/
structure Holds (engine : Engine) (rowsAt : Address → List Bytes) : Prop where
  shows : ∀ active, scene.search.active = some active →
    active.Shows engine rowsAt scene.refreshed
  ids : ∀ request ∈ scene.issued, request.id < scene.next
  unique : ∀ first ∈ scene.issued, ∀ second ∈ scene.issued, first.id = second.id → first = second
  asked : ∀ request, .request request ∈ scene.asked → request ∈ scene.issued
  handed : ∀ request, scene.search.active.bind (·.pending) = some request →
    (workerIntents scene.asked).getLast? = some (.request request)

variable {scene} {event : Event}

theorem Holds.pending_issued (holds : scene.Holds engine rowsAt) {request : Request}
    (awaits : scene.search.active.bind (·.pending) = some request) : request ∈ scene.issued :=
  holds.asked request (mem_workerIntents.mp (List.mem_of_getLast? (holds.handed request awaits)))

/-- Results of a request that is awaited are its own. -/
theorem Holds.own (holds : scene.Holds engine rowsAt) {results : Results}
    (allowed : ∃ request ∈ scene.issued, results = request.results engine rowsAt) {request : Request}
    (awaits : scene.search.active.bind (·.pending) = some request) (same : request.id = results.id) :
    results = request.results engine rowsAt := by
  obtain ⟨other, issued, rfl⟩ := allowed
  rw [holds.unique request (holds.pending_issued awaits) other issued same]

theorem goes_inactive {search : Search} (inactive : search.active = none)
    (refreshed : List SearchedDocument) (next : Nat) :
    search.Goes engine rowsAt refreshed next ⟨search, [], next⟩ :=
  Search.same_goes (fun _ held => (nomatch inactive.symm.trans held)) [] rfl next

theorem edit_goes (holds : scene.Holds engine rowsAt) (edit : Edit)
    (documents : List SearchedDocument) :
    scene.search.Goes engine rowsAt ((scene.refreshes (.edit edit documents)).getD scene.refreshed)
      scene.next (scene.search.edit engine rowsAt edit documents scene.next) := by
  cases editing : scene.search.active.filter (·.editing) with
  | none =>
    have idle : scene.search.active.any (·.editing) = false := by
      cases held : scene.search.active with
      | none => rfl
      | some active =>
        rw [held, Option.filter_eq_none_iff] at editing
        exact Bool.eq_false_iff.mpr (editing active rfl)
    rw [refreshes, Search.edit, editing, idle]
    exact Search.same_goes holds.shows [] rfl _
  | some active =>
    obtain ⟨held, typed⟩ := Option.filter_eq_some_iff.mp editing
    have shows := holds.shows active held
    have busy : scene.search.active.any (·.editing) = true := by
      rw [held]
      exact typed
    rw [refreshes, Search.edit, editing, busy]
    cases edit with
    | type character => exact Search.requery_goes held shows _ documents _
    | backspace => exact Search.requery_goes held shows _ documents _
    | paste text => exact Search.requery_goes held shows _ documents _
    | accept => exact Search.accept_goes held shows _
    | cancel => exact Search.cancel_goes _ _

theorem resume_goes (holds : scene.Holds engine rowsAt) (documents : List SearchedDocument) :
    scene.search.Goes engine rowsAt ((scene.refreshes (.resume documents)).getD scene.refreshed)
      scene.next (scene.search.resume engine rowsAt documents scene.next) := by
  cases awaits : scene.search.active.bind (·.pending) with
  | some request =>
    obtain ⟨active, held, pending⟩ := Option.bind_eq_some_iff.mp awaits
    have busy : scene.search.active.any (·.pending.isNone) = false := by
      rw [held, Option.any_some, pending]
      rfl
    rw [refreshes, Search.resume, awaits, busy]
    refine ⟨holds.shows, Nat.le_refl _, ?_, ?_, ?_⟩
    · intro own mem
      cases List.mem_singleton.mp mem
      exact Or.inr awaits
    · intro first second mem other
      cases List.mem_singleton.mp mem
      cases List.mem_singleton.mp other
      rfl
    · intro own same
      cases awaits.symm.trans same
      exact Or.inl rfl
  | none =>
    rw [refreshes, Search.resume, awaits]
    cases held : scene.search.active with
    | none =>
      rw [Search.refresh, held]
      exact goes_inactive held _ _
    | some active =>
      rw [held] at awaits
      rw [Option.any_some, show active.pending = none from awaits]
      exact Search.refresh_goes held (holds.shows active held) documents _

theorem setWaiting_goes (holds : scene.Holds engine rowsAt) (waiting : Bool) :
    scene.search.Goes engine rowsAt scene.refreshed scene.next
      ⟨scene.search.setWaiting waiting, [], scene.next⟩ := by
  cases held : scene.search.active with
  | none =>
    have same : scene.search.setWaiting waiting = scene.search := by
      rw [Search.setWaiting, held, Option.map_none, ← held]
    rw [same]
    exact goes_inactive held _ _
  | some active => exact Search.setWaiting_goes held (holds.shows active held) waiting _

/-- Every input. -/
theorem done_goes (holds : scene.Holds engine rowsAt) (allowed : scene.Allowed engine rowsAt event) :
    scene.search.Goes engine rowsAt ((scene.refreshes event).getD scene.refreshed) scene.next
      (scene.done engine rowsAt event) := by
  cases event with
  | beginTyping origin documents => exact Search.begin_goes [] true origin documents _
  | findWord word origin documents => exact Search.begin_goes word false origin documents _
  | edit edit documents => exact edit_goes holds edit documents
  | step direction current =>
    refine Search.same_goes holds.shows _ ?_ _
    rw [Search.step, workerIntents_append, workerIntents_status, List.append_nil]
    simp only [Option.bind_eq_bind]
    cases scene.search.active.filter fun active => !active.editing with
    | none => rfl
    | some active =>
      cases current with
      | none => rfl
      | some current => exact workerIntents_step active direction current
  | clear => exact Search.clear_goes _ _
  | refresh documents =>
    rw [refreshes, done]
    cases held : scene.search.active with
    | none =>
      rw [Search.refresh, held]
      exact goes_inactive held _ _
    | some active => exact Search.refresh_goes held (holds.shows active held) documents _
  | documentsLoaded documents =>
    rw [refreshes, done]
    cases held : scene.search.active with
    | none =>
      rw [Search.documentsLoaded, held]
      exact goes_inactive held _ _
    | some active => exact Search.documentsLoaded_goes held (holds.shows active held) documents _
  | waitForRepository => exact setWaiting_goes holds true
  | repositoryLoaded => exact setWaiting_goes holds false
  | resume documents => exact resume_goes holds documents
  | complete results documents =>
    rw [refreshes, done]
    cases awaited : scene.search.awaited results documents with
    | none =>
      rw [Search.complete, awaited]
      exact Search.same_goes holds.shows [] rfl _
    | some found =>
      obtain ⟨active, freshness⟩ := found
      cases freshness with
      | stale => exact Search.complete_stale_goes holds.shows awaited _
      | current =>
        rw [Search.complete, awaited]
        refine Search.accepted_goes holds.shows awaited
          (fun request awaits same => holds.own allowed awaits same) _ ?_ _
        split_ifs <;> simp
  | retain results documents =>
    rw [refreshes, done, Search.retain]
    cases awaited : scene.search.awaited results documents with
    | none => exact Search.same_goes holds.shows [] rfl _
    | some found =>
      obtain ⟨active, freshness⟩ := found
      cases freshness with
      | stale => exact Search.dropped_goes holds.shows awaited _
      | current =>
        exact Search.accepted_goes holds.shows awaited
          (fun request awaits same => holds.own allowed awaits same) [] rfl _
  | elsewhere query documents =>
    have same := Search.same_goes holds.shows [] rfl scene.next
    exact ⟨same.shows, Nat.le_succ _, fun _ none => (nomatch none), same.single, same.handed⟩

theorem mem_requested {next : Nat} {intents : List Intent} {request : Request}
    (mem : request ∈ requested next event intents) :
    .request request ∈ intents ∨ ∃ query documents, event = .elsewhere query documents ∧
      request = ⟨next, query, documents⟩ := by
  rcases List.mem_append.mp mem with other | own
  · cases event with
    | elsewhere query documents => exact Or.inr ⟨query, documents, rfl, List.mem_singleton.mp other⟩
    | _ => cases other
  · obtain ⟨intent, given, same⟩ := List.mem_filterMap.mp own
    cases intent with
    | request asked =>
      obtain rfl := Option.some.inj same
      exact Or.inl given
    | _ => cases same

theorem requested_of_mem {next : Nat} {intents : List Intent} {request : Request}
    (mem : .request request ∈ intents) : request ∈ requested next event intents :=
  List.mem_append_right _ (List.mem_filterMap.mpr ⟨_, mem, rfl⟩)

/-- A request that an input hands to the worker is new, or awaited already. -/
theorem requested_new (holds : scene.Holds engine rowsAt)
    (allowed : scene.Allowed engine rowsAt event) {request : Request}
    (mem : request ∈ requested scene.next event (scene.done engine rowsAt event).intents) :
    (request.id = scene.next ∧ scene.next < (scene.done engine rowsAt event).next) ∨
      request ∈ scene.issued := by
  rcases mem_requested mem with given | ⟨query, documents, rfl, rfl⟩
  · exact ((done_goes holds allowed).fresh request given).imp_right holds.pending_issued
  · exact Or.inl ⟨rfl, Nat.lt_succ_self _⟩

theorem requested_single (holds : scene.Holds engine rowsAt)
    (allowed : scene.Allowed engine rowsAt event) {first second : Request}
    (mem : first ∈ requested scene.next event (scene.done engine rowsAt event).intents)
    (other : second ∈ requested scene.next event (scene.done engine rowsAt event).intents) :
    first = second := by
  rcases mem_requested mem with given | ⟨query, documents, rfl, rfl⟩
  · rcases mem_requested other with more | ⟨query, documents, rfl, rfl⟩
    · exact (done_goes holds allowed).single first second given more
    · cases given
  · exact (List.mem_singleton.mp other).symm

theorem issued_cases (holds : scene.Holds engine rowsAt)
    (allowed : scene.Allowed engine rowsAt event) {request : Request}
    (issued : request ∈ (scene.take engine rowsAt event).issued) :
    request ∈ scene.issued ∨
      request ∈ requested scene.next event (scene.done engine rowsAt event).intents ∧
        request.id = scene.next ∧ scene.next < (scene.done engine rowsAt event).next := by
  rcases List.mem_append.mp issued with earlier | now
  · exact Or.inl earlier
  · rcases requested_new holds allowed now with new | earlier
    · exact Or.inr ⟨now, new⟩
    · exact Or.inl earlier

/-- The next scene. -/
theorem holds_take (holds : scene.Holds engine rowsAt) (allowed : scene.Allowed engine rowsAt event) :
    (scene.take engine rowsAt event).Holds engine rowsAt := by
  have goes := done_goes holds allowed
  refine ⟨goes.shows, ?_, ?_, ?_, ?_⟩
  · intro request issued
    rcases issued_cases holds allowed issued with earlier | ⟨-, new, later⟩
    · exact (holds.ids request earlier).trans_le goes.le
    · exact new ▸ later
  · intro first issued second other same
    rcases issued_cases holds allowed issued with held | ⟨now, new, -⟩
    · rcases issued_cases holds allowed other with also | ⟨-, other, -⟩
      · exact holds.unique first held second also same
      · exact absurd (same.trans other) (holds.ids first held).ne
    · rcases issued_cases holds allowed other with also | ⟨also, -, -⟩
      · exact absurd (same.symm.trans new) (holds.ids second also).ne
      · exact requested_single holds allowed now also
  · intro request mem
    rcases List.mem_append.mp mem with earlier | now
    · exact List.mem_append_left _ (holds.asked request earlier)
    · exact List.mem_append_right _ (requested_of_mem now)
  · intro request awaits
    change (workerIntents (scene.asked ++ _)).getLast? = _
    rw [workerIntents_append]
    rcases goes.handed request awaits with last | ⟨silent, pending⟩
    · rw [List.getLast?_append, last, Option.some_or]
    · rw [silent, List.append_nil]
      exact holds.handed request pending

theorem holds_of_reachable (reachable : Reachable engine rowsAt scene) :
    scene.Holds engine rowsAt := by
  induction reachable with
  | new next =>
    exact ⟨fun _ none => (nomatch none), fun _ none => (nomatch none), fun _ none => (nomatch none),
      fun _ none => (nomatch none), fun _ none => (nomatch none)⟩
  | take _ allowed ih => exact holds_take ih allowed

end Scene

/-- Results of a request that is not awaited change nothing. -/
theorem Scene.superseded {scene : Scene} (holds : scene.Holds engine rowsAt) {request : Request}
    (issued : request ∈ scene.issued)
    (other : scene.search.active.bind (·.pending) ≠ some request)
    (documents : List SearchedDocument) :
    scene.search.awaited (request.results engine rowsAt) documents = none := by
  cases awaited : scene.search.awaited (request.results engine rowsAt) documents with
  | none => rfl
  | some found =>
    obtain ⟨active, freshness⟩ := found
    obtain ⟨held, pending, awaits, same, -⟩ := Search.awaited_eq_some.mp awaited
    have awaits : scene.search.active.bind (·.pending) = some pending := by
      rw [held]
      exact awaits
    have own := holds.unique pending (holds.pending_issued awaits) request issued same
    exact absurd (own ▸ awaits) other

/-- A matcher of the letter a, in either case. -/
def letter : Literal UInt8 where
  heads
    | 97 :: _ | 65 :: _ => some 1
    | _ => none
  takes := by
    intro text taken matched
    split at matched <;> cases matched <;> simp
  alone := by
    intro text taken matched rest
    split at matched <;> cases matched <;> rfl

/-- An engine that knows one query. -/
def letterEngine : Engine where
  build query := if query = ['a'] then some letter else none
  within_line := by
    intro query literal _ built
    split_ifs at built
    cases built
    intro text taken matched
    dsimp only [letter] at matched
    split at matched <;> cases matched <;> simp
  matchedLines literal text := ((offsets 0 (Lines.new text)).zip (Lines.new text)).filter
    fun line => literal.findAt line.2 0 ≠ none
  lines_law _ _ := rfl

/-- Every text has two rows. -/
def twoRows : Address → List Bytes := fun _ => [[97, 98], [66, 65]]

/-- The letter is typed over a document. -/
def typed : Scene :=
  let documents : List SearchedDocument := [⟨"a.rs", 0⟩]
  ((Scene.new 1).take letterEngine twoRows (.beginTyping ⟨0, "a.rs", 0, 0⟩ documents)).take
    letterEngine twoRows (.edit (.type 'a') documents)

theorem typed_reachable : Scene.Reachable letterEngine twoRows typed := by
  refine .take (.take (.new 1) ?_) ?_ <;> exact trivial

end ProgressiveReviewer.DiffSearch
