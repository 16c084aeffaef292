import ProgressiveReviewer.Explore.Coherence
import ProgressiveReviewer.Implementation.Fates

/-! A conclusion is implemented once: when a request is authorized, every earlier prompt of its
conclusion was reported as unreceived, or will never be typed. -/

namespace ProgressiveReviewer.Implementation

open Library Prompts
open Explore hiding PromptError outcome

variable {system : System} {id : Nat} {prompt : PromptRequest}

/-- What the receipt of a prompt says, once it says something. -/
def System.receipt (system : System) (id : Nat) (prompt : PromptRequest) :
    Option (Except PromptError Unit) :=
  let closed : Except PromptError Unit := .error (.unknown "The reviewer prompt dispatcher closed")
  match prompt.phase with
  | .reported result => some result
  | .dropped => some closed
  | .handed =>
    if prompt.queued id ∈ system.courier.unwound ∨ prompt.queued id ∈ system.courier.undelivered
    then some closed else none
  | _ => none

/-- The session reported a prompt as not sent, not started or unknown. -/
def System.Unreceived (system : System) (id : Nat) (prompt : PromptRequest) : Prop :=
  ∃ result, system.receipt id prompt = some result ∧
    match ImplementationState.of (outcome result) true with
    | .notSent _ | .notStarted | .unknown => True
    | _ => False

/-- The agent had the prompt typed. -/
def System.Typed (system : System) (id : Nat) (prompt : PromptRequest) : Prop :=
  prompt.queued id ∈ system.courier.typed

theorem unreceived_of_typed (inv : Inv system) (found : system.requests.lookup id = some prompt)
    (done : Done system id prompt) (typed : system.Typed id prompt) :
    system.Unreceived id prompt := by
  have handed := inv.carried.inv.handed_of_typed typed
  rcases inv.carried.typed id prompt found typed with ⟨result, thread⟩ | ⟨result, phase, honest⟩ | lost
  · exact absurd (.inr ⟨result, thread, typed⟩) done.sending
  · refine ⟨result, by simp only [System.receipt, phase], ?_⟩
    have unreceived : result ≠ .ok () := by
      rintro rfl
      exact done.received phase
    rcases result with (_ | _ | _ | _ | _) | _
    · exact absurd rfl honest
    · trivial
    · trivial
    · trivial
    · trivial
    · exact absurd rfl unreceived
  · obtain ⟨_, known⟩ := inv.carried.handed _ handed
    have phase : prompt.phase = .handed := (known prompt found).2.resolve_right fun ended => by
      have settled := inv.carried.inv.settled (prompt.queued id)
      have := inv.carried.inv.count_le_one (prompt.queued id)
      have := List.count_pos_iff.mpr lost
      have := List.count_pos_iff.mpr ended.2
      omega
    refine ⟨.error (.unknown "The reviewer prompt dispatcher closed"), ?_, trivial⟩
    simp only [System.receipt, phase, lost, true_or, if_true]

/-- A prompt that was authorized before another one of its conclusion is done. -/
theorem done_of_later (inv : Inv system) {other : Nat} {later : PromptRequest}
    (found : system.requests.lookup id = some prompt)
    (found' : system.requests.lookup other = some later) (before : id < other)
    (same : prompt.conclusion = later.conclusion) : Done system id prompt :=
  (inv.fates id prompt found).resolve_left fun current =>
    absurd (current.last other later found' same.symm) (by omega)

/-! ## What stays of a prompt -/

/-- Steps keep the prompts, but for their phases. -/
structure Persists (before after : System) : Prop where
  requests : ∀ id prompt, before.requests.lookup id = some prompt →
    ∃ phase, after.requests.lookup id = some { prompt with phase := phase }
  typed : ∀ queued ∈ after.courier.typed, queued ∈ before.courier.typed ∨
    before.courier.thread = .typing queued

namespace Persists

theorem refl : Persists system system := ⟨fun _ prompt found => ⟨prompt.phase, found⟩, fun _ => .inl⟩

theorem move {phase : Phase} (found : system.requests.lookup id = some prompt) :
    Persists system (system.move id prompt phase) := by
  refine ⟨fun other later saved => ?_, fun _ => .inl⟩
  by_cases same : id = other
  · cases found.symm.trans (same ▸ saved)
    exact ⟨phase, SortedMap.lookup_insert.trans (if_pos same)⟩
  · exact ⟨later.phase, SortedMap.lookup_insert.trans ((if_neg same).trans saved)⟩

end Persists

theorem typed_courier {courier : Courier} {action : Prompts.Action}
    (may : Courier.May courier action) : ∀ queued ∈ (courier.step action).typed,
      queued ∈ courier.typed ∨ courier.thread = .typing queued := by
  intro queued mem
  cases action with
  | type other result =>
    rcases List.mem_append.mp mem with old | new
    · exact .inl old
    · exact .inr (List.mem_singleton.mp new ▸ may)
  | _ => exact .inl mem

theorem persists_finish {result : Except PromptError Unit} {began : Bool} {saving : Saving}
    {now : Nat} {courier : Courier} {worker : Option Nat}
    (found : system.requests.lookup id = some prompt)
    (typed : courier.typed = system.courier.typed) :
    Persists system ({ system with worker := worker, courier := courier }.finish id prompt result
      began saving now) := by
  obtain ⟨round, reported, same, -⟩ := finish_eq
    { system with worker := worker, courier := courier } id prompt result began saving now
  rw [same]
  exact ⟨(Persists.move found).requests, fun _ mem => .inl (typed ▸ mem)⟩

theorem persists_step {action : Action} (inv : Inv system) (may : system.May action) :
    Persists system (system.step action) := by
  have same : ∀ {after : System}, after.requests = system.requests →
      after.courier.typed = system.courier.typed → Persists system after := fun requests typed =>
    ⟨fun _ prompt found => ⟨prompt.phase, requests ▸ found⟩, fun _ mem => .inl (typed ▸ mem)⟩
  have released : system.released.typed = system.courier.typed := by
    unfold System.released
    split <;> rfl
  cases action with
  | implement request ready agent attempt saving =>
    rw [System.step]
    split_ifs
    · unfold System.implement
      split
      · exact same rfl rfl
      · refine ⟨fun id prompt found => ⟨prompt.phase, ?_⟩, fun _ => .inl⟩
        have below := inv.carried.given id prompt found
        exact SortedMap.lookup_insert.trans ((if_neg (by omega)).trans found)
    · exact .refl
  | send id =>
    obtain ⟨_, prompt, found, _⟩ := may
    rw [System.step, withPrompt_eq found]
    exact .move found
  | closed id saving now =>
    obtain ⟨_, prompt, found, _⟩ := may
    rw [System.step, withPrompt_eq found]
    exact persists_finish found rfl
  | keep id => exact same rfl released
  | drop why => exact same rfl released
  | other action => exact same rfl rfl
  | look id found =>
    obtain ⟨_, _, prompt, saved, _⟩ := may
    rw [System.step, withPrompt_eq saved]
    unfold System.look
    split_ifs
    · exact ⟨(Persists.move saved).requests, fun _ => .inl⟩
    · rcases found with error | _ | agent
      · exact ⟨(Persists.move saved).requests, fun _ => .inl⟩
      · exact .refl
      · exact ⟨(Persists.move saved).requests, fun _ => .inl⟩
  | begin id saving now =>
    obtain ⟨_, prompt, found, is⟩ := may
    obtain ⟨agent, phase⟩ := Phase.isFound_iff.mp is
    rw [System.step, withPrompt_eq found, System.begin]
    simp only [phase]
    split <;> exact ⟨(Persists.move found).requests, fun _ => .inl⟩
  | sealAttempt id ready =>
    obtain ⟨_, _, prompt, found, _⟩ := may
    rw [System.step, withPrompt_eq found]
    cases ready with
    | ok => exact ⟨(Persists.move found).requests, fun _ => .inl⟩
    | error error => exact .move found
  | refuse id saving now =>
    obtain ⟨_, prompt, found, is⟩ := may
    obtain ⟨error, began, phase⟩ := Phase.isRefused_iff.mp is
    rw [System.step, withPrompt_eq found]
    simp only [phase]
    exact persists_finish found rfl
  | turnBack id saving now =>
    obtain ⟨prompt, found, _⟩ := may
    rw [System.step, withPrompt_eq found]
    exact persists_finish found rfl
  | report id result saving now =>
    obtain ⟨prompt, found, _⟩ := may
    rw [System.step, withPrompt_eq found]
    exact persists_finish found rfl
  | abandon id =>
    obtain ⟨prompt, found, _⟩ := may
    rw [System.step, withPrompt_eq found]
    exact .move found
  | name => exact same rfl rfl
  | courier action => exact ⟨fun _ prompt found => ⟨prompt.phase, found⟩, typed_courier may.1⟩

/-- Once a later prompt of its conclusion is authorized, a prompt is not typed any more. -/
theorem typed_of_later {after : System} {other : Nat} {later : PromptRequest} (inv : Inv system)
    (found : system.requests.lookup id = some prompt)
    (found' : system.requests.lookup other = some later) (before : id < other)
    (same : prompt.conclusion = later.conclusion) (run : Reaches System.step Allowed system after)
    (typed : after.Typed id prompt) : system.Typed id prompt := by
  have kept : Inv after ∧ (∃ phase, after.requests.lookup id = some { prompt with phase := phase }) ∧
      (∃ phase, after.requests.lookup other = some { later with phase := phase }) ∧
      (after.Typed id prompt → system.Typed id prompt) := by
    clear typed
    induction run with
    | start => exact ⟨inv, ⟨_, found⟩, ⟨_, found'⟩, fun typed => typed⟩
    | step action _ may ih =>
      obtain ⟨inv, ⟨phase, found⟩, ⟨phase', found'⟩, back⟩ := ih
      have persists := persists_step inv may.1
      have first := persists.requests _ _ found
      have second := persists.requests _ _ found'
      refine ⟨inv_step inv may.1 may.2, first, second, fun typed => ?_⟩
      rcases persists.typed _ typed with old | typing
      · exact back old
      · exact absurd (.inl typing) (done_of_later inv found found' before same).sending
  exact kept.2.2.2 typed

/-! ## The results -/

/-- At most one prompt of a conclusion is received. An earlier one was never typed and never will
be, or the session reported it as not sent, not started or unknown. -/
structure ImplementedOnce (system : System) : Prop where
  earlier : ∀ id prompt other later, system.requests.lookup id = some prompt →
    system.requests.lookup other = some later → id < other → prompt.conclusion = later.conclusion →
      (system.Typed id prompt → system.Unreceived id prompt) ∧
      ∀ after, Reaches System.step Allowed system after → after.Typed id prompt →
        system.Typed id prompt
  reported : ∀ id prompt other later, system.requests.lookup id = some prompt →
    system.requests.lookup other = some later → prompt.conclusion = later.conclusion →
      system.receipt id prompt = some (.ok ()) → system.receipt other later = some (.ok ()) →
        id = other
  saved : ∀ delivery record other later,
    system.round.implementations.lookup delivery = some record →
      system.round.implementations.lookup other = some later →
        record.request.conclusion = later.request.conclusion → record.state = .delivered →
          later.state = .delivered → delivery = other
  sound : Sound system.round

theorem received_of_receipt (received : system.receipt id prompt = some (.ok ())) :
    At system.courier id prompt .received := by
  unfold System.receipt at received
  split at received
  · next result phase =>
    cases received
    exact phase
  · cases received
  · split_ifs at received
    cases received
  · cases received

theorem implemented_once {round : ExploreRound} (sound : Sound round)
    (run : Reaches System.step Allowed (System.start round) system) : ImplementedOnce system := by
  have inv := inv_of_reaches sound run
  refine ⟨fun id prompt other later found found' before same => ⟨fun typed => ?_, fun after run typed => ?_⟩,
    fun id prompt other later found found' same received received' => ?_,
    fun delivery record other later saved saved' same state state' => ?_, inv.sound⟩
  · exact unreceived_of_typed inv found (done_of_later inv found found' before same) typed
  · exact typed_of_later inv found found' before same run typed
  · rcases Nat.lt_trichotomy id other with before | equal | after
    · exact absurd (received_of_receipt received)
        (done_of_later inv found found' before same).received
    · exact equal
    · exact absurd (received_of_receipt received')
        (done_of_later inv found' found after same.symm).received
  · have equal := (inv.sound.delivered delivery record saved state).unique inv.sound.toOrdered
      (inv.sound.delivered other later saved' state') same
    rw [← inv.sound.named delivery record saved, ← inv.sound.named other later saved', equal]

/-! ## Runs -/

namespace Sample

/-- The round accepted a conclusion. -/
def concluded : ExploreRound :=
  [Explore.Sample.post (Explore.Sample.request "kickoff" none []),
    Explore.Sample.submit (Explore.Sample.closing "kickoff")].foldl ExploreRound.step
      Explore.Sample.opened

theorem sound_concluded : Sound concluded := sound_of_none (by decide)

def request (delivery : String) : ImplementationRequest := ⟨"round", "kickoff", delivery, "Tasks"⟩

def queued (id : Nat) : QueuedPrompt :=
  ⟨"pane", implementationPrompt (request "") .reviewer, some id, id⟩

def implement (id : Nat) (delivery attempt : String) : List Action :=
  [.implement (request delivery) true "pane" attempt .written, .send id, .keep id]

/-- The worker finds no agent for a prompt. -/
def fail (id : Nat) : List Action := [.look id (.error "No agent"), .refuse id .written 0]

/-- The courier reads the flag of a prompt. -/
def carry (id : Nat) : List Action :=
  [.look id (.ok (some ⟨none, none⟩)), .begin id .written 0, .sealAttempt id (.ok ()),
    .courier (.push (queued id)), .courier (.receive (queued id)), .courier (.begin (queued id)),
    .courier (.check (queued id))]

def deliver (id : Nat) : List Action :=
  [.courier (.type (queued id) (.ok ())), .report id (.ok ()) .written 0,
    .courier (.finish (queued id))]

/-- The first request is not sent, and another one is. -/
def replacing : List Action :=
  implement 0 "one" "first" ++ fail 0 ++ implement 1 "two" "second" ++ carry 1 ++ deliver 1

/-- Cancel implementation comes while the first prompt is typed, then another request. -/
def cancelling : List Action :=
  implement 0 "one" "first" ++ carry 0 ++ [.drop .cancelImplementation] ++
    implement 1 "two" "second" ++ deliver 0 ++ carry 1 ++ deliver 1

/-- Two requests are not sent, and the first one is sent again, then a third one. -/
def repeating : List Action :=
  implement 0 "one" "first" ++ fail 0 ++ implement 1 "two" "second" ++ fail 1 ++
    implement 2 "one" "third" ++ carry 2 ++ deliver 2 ++ implement 3 "three" "fourth" ++ carry 3 ++
    deliver 3

theorem runs_allowed : AllAllowed System.step Allowed (System.start concluded) replacing ∧
    ∀ actions ∈ [cancelling, repeating],
      AllAllowed System.step System.May (System.start concluded) actions := by decide +kernel

def replaced : System := replacing.foldl System.step (System.start concluded)

theorem replaced_once : ImplementedOnce replaced ∧
    replaced.round.implementations.values.map (·.state) = [.notSent "No agent", .delivered] :=
  ⟨implemented_once sound_concluded (Reaches.start.foldl runs_allowed.1), by decide⟩

/-- Two requests of the conclusion are delivered, and neither was reported as unreceived. -/
theorem implemented_twice :
    (Reaches System.step System.May (System.start concluded)
        (cancelling.foldl System.step (System.start concluded)) ∧
      ¬ImplementedOnce (cancelling.foldl System.step (System.start concluded))) ∧
    Reaches System.step System.May (System.start concluded)
        (repeating.foldl System.step (System.start concluded)) ∧
      ¬ImplementedOnce (repeating.foldl System.step (System.start concluded)) := by
  have twice : ∀ system : System, ∀ delivery record other later, delivery ≠ other →
      system.round.implementations.lookup delivery = some record →
      system.round.implementations.lookup other = some later →
      record.request.conclusion = later.request.conclusion → record.state = .delivered →
      later.state = .delivered → ¬ImplementedOnce system :=
    fun system delivery record other later apart saved saved' same state state' once =>
      apart (once.saved delivery record other later saved saved' same state state')
  refine ⟨⟨Reaches.start.foldl (runs_allowed.2 _ List.mem_cons_self), ?_⟩,
    Reaches.start.foldl (runs_allowed.2 _ (List.mem_cons_of_mem _ List.mem_cons_self)), ?_⟩
  · exact twice _ "one" ⟨3, "first", request "one", .delivered, some 0⟩
      "two" ⟨5, "second", request "two", .delivered, some 0⟩ (by decide) (by decide)
      (by decide) rfl rfl rfl
  · exact twice _ "one" ⟨3, "third", request "one", .delivered, some 0⟩
      "three" ⟨10, "fourth", request "three", .delivered, some 0⟩ (by decide) (by decide)
      (by decide) rfl rfl rfl

end Sample

end ProgressiveReviewer.Implementation
