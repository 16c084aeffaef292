import ProgressiveReviewer.Explore.Handoffs
import ProgressiveReviewer.Library.Latest
import ProgressiveReviewer.Prompts.Courier

/-! The implementation of a conclusion. The session saves the authorized request and sends its
prompt, which the worker and the courier's thread take on while the session handles further
commands, some of which drop the handle that withdraws the prompt
(`review-explore-session/src/implementation.rs`, `dispatch.rs`, `lib.rs`,
`review-explore/src/durable.rs`, `review-thread-service/src/delivery.rs`). -/

namespace ProgressiveReviewer.Explore.ExploreRound

open Library

variable (round : ExploreRound)

def implementationsOf (conclusion : String) : List ImplementationDelivery :=
  round.implementations.values.filter (·.request.conclusion = conclusion)

/-- The latest implementation request the reviewer authorized for a conclusion. -/
def latestImplementation (conclusion : String) : Option ImplementationDelivery :=
  lastMax (·.authorizedAt) (round.implementationsOf conclusion)

end ProgressiveReviewer.Explore.ExploreRound

namespace ProgressiveReviewer.Implementation

open Library Prompts
open Explore hiding PromptError outcome

/-- What the front ends show of a request. -/
inductive ImplementationState
  | sending
  | paused
  | unknown
  | sent
  | notStarted
  | notSent (reason : String)
  | cancelled
  deriving DecidableEq, Repr

/-- One saved as queued or attempting is on its way when this process sends it. -/
def ImplementationState.of (state : DispatchState) (sending : Bool) : ImplementationState :=
  match state with
  | .queued => if sending then .sending else .paused
  | .attempting => if sending then .sending else .unknown
  | .unknown => .unknown
  | .delivered => .sent
  | .notStarted => .notStarted
  | .notSent reason => .notSent reason
  | .cancelled => .cancelled

/-- Why a prompt was not delivered, as the one who observes the dispatch has it. -/
def observed : PromptError → Explore.PromptError
  | .cancelled => .cancelled
  | .delivery message => .delivery message
  | .notStarted => .notStarted
  | .blocked left => .blocked left
  | .unknown message => .unknown message

/-- How the outcome of a prompt is saved. -/
def outcome (result : Except PromptError Unit) : DispatchState :=
  Explore.outcome (result.mapError observed)

def implementationPrompt (request : ImplementationRequest) : ChangeAuthor → String
  | .other => "The reviewer clicked Post review on the Explore conclusion of someone else's change. Post the review below on the change's pull request, with the repository's usual tool for it, such as gh: each comment on the file and line it names, the others in the review's body. This action authorizes posting these comments only: do not edit code, push, approve or request changes. If you cannot find the change's pull request, say so and stop.\n\nReview from the reviewer:\n" ++ request.text
  | .reviewer => "The reviewer clicked Implement on the Explore conclusion. Implement the edited task list below in this conversation, following the repository instructions and validating the changes. This action authorizes code edits and tests for these tasks. Summary and future-work items are not additional implementation scope. Do not submit another review question or mark files reviewed as part of this action.\n\nTasks from the reviewer:\n" ++ request.text

/-- Another request holds the conclusion: one this process sends, or one the agent received. -/
def isHeld (round : ExploreRound) (request : ImplementationRequest) (sending : Bool) : Bool :=
  ((round.latestImplementation request.conclusion).filter
    (·.request.delivery ≠ request.delivery)).any fun latest =>
      match latest.state with
      | .delivered => true
      | .queued | .attempting => sending
      | _ => false

/-- Authorize a request, queued, unless another one holds its conclusion. -/
def admitted (round : ExploreRound) (request : ImplementationRequest) (sending : Bool)
    (attempt : String) : Except String ExploreRound := do
  ensure (isHeld round request sending = false)
    "An implementation request for this conclusion was sent already"
  let (_, authorized) ← round.authorize request attempt
  return { authorized with
    implementations := authorized.implementations.modify request.delivery fun delivery =>
      { delivery with state := .queued } }

/-- How a save of the round ends: it may fail before the file is written or after. -/
inductive Saving
  | written
  | failed (error : String)
  | unsure (error : String)
  deriving DecidableEq, Repr

/-- A change of the saved round, and whether the one who made it hears of it as saved. -/
def save (change : ExploreRound → Except String ExploreRound) (round : ExploreRound) :
    Saving → Except String Unit × ExploreRound
  | .failed error => (.error error, round)
  | .written =>
    match updateRound change round with
    | .ok changed => (.ok (), changed)
    | .error error => (.error error, round)
  | .unsure error =>
    match updateRound change round with
    | .ok changed => (.error error, changed)
    | .error _ => (.error error, round)

/-- Where a prompt is, from the authorization to its outcome. -/
inductive Phase
  | saved
  | queued
  | found (agent : Agent)
  | begun
  | refused (error : PromptError) (began : Bool)
  | handed
  | reported (result : Except PromptError Unit)
  /-- The worker stopped with the prompt in its queue. -/
  | dropped
  deriving DecidableEq

namespace Phase

def isFound : Phase → Bool
  | .found _ => true
  | _ => false

def isRefused : Phase → Bool
  | .refused _ _ => true
  | _ => false

variable {phase : Phase}

theorem isFound_iff : phase.isFound = true ↔ ∃ agent, phase = .found agent := by
  cases phase <;> simp [isFound]

theorem isRefused_iff : phase.isRefused = true ↔ ∃ error began, phase = .refused error began := by
  cases phase <;> simp [isRefused]

end Phase

/-- The prompt of an authorized request, with the observer that saves its attempt. -/
structure PromptRequest where
  agent : String
  text : String
  request : ImplementationRequest
  attempt : String
  phase : Phase

namespace PromptRequest

variable (prompt : PromptRequest)

def conclusion : String := prompt.request.conclusion

def dispatch : DispatchId := .implementation prompt.request.delivery prompt.attempt

/-- As the courier has it; the flag that withdraws it and its outcome go by its name. -/
def queued (id : Nat) : QueuedPrompt := ⟨prompt.agent, prompt.text, some id, id⟩

end PromptRequest

/-- Why the session drops the handle of its implementation prompt. -/
inductive HandleDrop
  | cancelImplementation
  | stopWaiting
  | start
  | postedTurn
  | reset
  | reopened
  deriving DecidableEq, Repr

/-- The saved round, what the session holds, its prompts by name, and the courier, whose flags
and outcomes have names too. `next` is the first name not given yet. -/
structure System where
  round : ExploreRound
  handle : Option Nat
  /-- The prompt of the Implement command under way. -/
  command : Option Nat
  worker : Option Nat
  requests : SortedMap Nat PromptRequest
  next : Nat
  courier : Courier

inductive Action
  /-- `ready` is whether what comes before the save passes: storage, agent, round, a first look
  at who holds the conclusion, and the marks that go back to review. -/
  | implement (request : ImplementationRequest) (ready : Bool) (agent attempt : String)
      (saving : Saving)
  | send (id : Nat)
  | closed (id : Nat) (saving : Saving) (now : Nat)
  | keep (id : Nat)
  | drop (why : HandleDrop)
  /-- Another change of the saved round. -/
  | other (action : Explore.Action)
  | look (id : Nat) (found : Except String (Option Agent))
  | begin (id : Nat) (saving : Saving) (now : Nat)
  | sealAttempt (id : Nat) (ready : Except String Unit)
  | refuse (id : Nat) (saving : Saving) (now : Nat)
  | turnBack (id : Nat) (saving : Saving) (now : Nat)
  | report (id : Nat) (result : Except PromptError Unit) (saving : Saving) (now : Nat)
  | abandon (id : Nat)
  /-- A flag or an outcome elsewhere gets a name. -/
  | name
  | courier (action : Prompts.Action)

namespace System

def start (round : ExploreRound) : System where
  round := round
  handle := none
  command := none
  worker := none
  requests := .empty
  next := 0
  courier := .start

variable (system : System)

def move (id : Nat) (prompt : PromptRequest) (phase : Phase) : System :=
  { system with requests := system.requests.insert id { prompt with phase := phase } }

def withPrompt (id : Nat) (act : PromptRequest → System) : System :=
  match system.requests.lookup id with
  | some prompt => act prompt
  | none => system

/-- The outcome of a prompt is saved, then reported; one that cannot be saved is unknown. -/
def finish (id : Nat) (prompt : PromptRequest) (result : Except PromptError Unit) (began : Bool)
    (saving : Saving) (now : Nat) : System :=
  let observed : DispatchResult := ⟨prompt.dispatch, began, outcome result⟩
  match save (fun round => .ok (round.finishDispatch observed now)) system.round saving with
  | (.ok (), round) => { system with round := round }.move id prompt (.reported result)
  | (.error error, round) =>
    { system with round := round }.move id prompt (.reported (.error (.unknown error)))

/-- The courier once the handle is dropped, which withdraws its prompt. -/
def released : Courier :=
  match system.handle with
  | some id => system.courier.step (.withdraw id)
  | none => system.courier

def implement (request : ImplementationRequest) (agent attempt : String) (saving : Saving) :
    System :=
  match save (fun round => admitted round request system.handle.isSome attempt) system.round saving with
  | (.error _, round) => { system with round := round }
  | (.ok (), round) => { system with
      round := round
      command := some system.next
      requests := system.requests.insert system.next {
        agent := agent
        text := implementationPrompt request round.exploration.author
        request := request
        attempt := attempt
        phase := .saved }
      next := system.next + 1 }

/-- The worker looks at the flag and at the agent before it begins the attempt. -/
def look (id : Nat) (prompt : PromptRequest) (found : Except String (Option Agent)) : System :=
  if id ∈ system.courier.withdrawn
  then { system with worker := some id }.move id prompt (.refused .cancelled false)
  else match found with
    | .error error => { system with worker := some id }.move id prompt (.refused (.delivery error) false)
    | .ok none => system
    | .ok (some agent) => { system with worker := some id }.move id prompt (.found agent)

def begin (id : Nat) (prompt : PromptRequest) (saving : Saving) (now : Nat) : System :=
  match prompt.phase with
  | .found agent =>
    match save (fun round => round.beginDispatch prompt.dispatch agent now) system.round saving with
    | (.ok (), round) => { system with round := round }.move id prompt .begun
    | (.error error, round) =>
      { system with round := round }.move id prompt (.refused (.delivery error) false)
  | _ => system

/-- Seal the attempt, and hand the prompt to the courier. -/
def sealAttempt (id : Nat) (prompt : PromptRequest) : Except String Unit → System
  | .ok () => { system with
      worker := none
      courier := system.courier.step (.send (prompt.queued id)) }.move id prompt .handed
  | .error error => system.move id prompt (.refused (.delivery error) true)

def step : Action → System
  | .implement request ready agent attempt saving =>
    if ready then system.implement request agent attempt saving else system
  | .send id => system.withPrompt id fun prompt => system.move id prompt .queued
  | .closed id saving now => system.withPrompt id fun prompt =>
      let error := "The reviewer prompt dispatcher is unavailable; nothing was sent"
      system.finish id prompt (.error (.delivery error)) false saving now
  | .keep id => { system with handle := some id, command := none, courier := system.released }
  | .drop _ => { system with handle := none, courier := system.released }
  | .other action => { system with round := system.round.step action }
  | .look id found => system.withPrompt id fun prompt => system.look id prompt found
  | .begin id saving now => system.withPrompt id fun prompt => system.begin id prompt saving now
  | .sealAttempt id ready => system.withPrompt id fun prompt => system.sealAttempt id prompt ready
  | .refuse id saving now => system.withPrompt id fun prompt =>
      match prompt.phase with
      | .refused error began =>
        { system with worker := none }.finish id prompt (.error error) began saving now
      | _ => system
  | .turnBack id saving now => system.withPrompt id fun prompt =>
      { system with courier := system.courier.step (.refuse (prompt.queued id)) }.finish id prompt
        (.error Courier.stoppedError) true saving now
  | .report id result saving now => system.withPrompt id fun prompt =>
      { system with courier := system.courier.step (.report (prompt.queued id) result) }.finish id
        prompt result true saving now
  | .abandon id => system.withPrompt id fun prompt => system.move id prompt .dropped
  | .name => { system with next := system.next + 1 }
  | .courier action => { system with courier := system.courier.step action }

/-- A prompt of the session, in a phase. -/
def Phased (id : Nat) (phase : Phase) : Prop :=
  ∃ prompt, system.requests.lookup id = some prompt ∧ prompt.phase = phase

/-- A name that was given to something else. -/
def Foreign (name : Nat) : Prop := name < system.next ∧ system.requests.lookup name = none

/-- What the courier does that is not about a prompt of the session's. -/
def Elsewhere : Prompts.Action → Prop
  | .send prompt => system.worker = none ∧ system.Foreign prompt.outcome ∧
      ∀ flag, prompt.cancelled = some flag → system.Foreign flag
  | .refuse prompt | .report prompt _ => system.requests.lookup prompt.outcome = none
  | .withdraw flag => system.Foreign flag
  -- Only the courier itself says that a prompt was withdrawn.
  | .type _ result => result ≠ .error .cancelled
  | _ => True

end System

/-- A change of a round that authorizes and dispatches no implementation. -/
def IsOther : Explore.Action → Prop
  | .authorize _ _ | .beginDispatch (.implementation _ _) _ _ => False
  | .finishDispatch result _ => ∀ request attempt, result.id ≠ .implementation request attempt
  | _ => True

/-- When each action can happen. -/
def System.May (system : System) : Action → Prop
  -- The name of an attempt is new.
  | .implement _ _ _ attempt _ => system.command = none ∧
      ∀ id prompt, system.requests.lookup id = some prompt → prompt.attempt ≠ attempt
  | .send id | .closed id _ _ => system.command = some id ∧ system.Phased id .saved
  | .keep id => system.command = some id ∧ ¬system.Phased id .saved
  | .drop _ => system.command = none
  | .other action => IsOther action
  | .look id _ => system.worker = none ∧ system.courier.worker = .idle ∧ system.Phased id .queued
  | .begin id _ _ => system.worker = some id ∧
      ∃ prompt, system.requests.lookup id = some prompt ∧ prompt.phase.isFound = true
  | .sealAttempt id _ => system.worker = some id ∧ system.courier.worker = .idle ∧ system.Phased id .begun
  | .refuse id _ _ => system.worker = some id ∧
      ∃ prompt, system.requests.lookup id = some prompt ∧ prompt.phase.isRefused = true
  | .turnBack id _ _ => ∃ prompt, system.requests.lookup id = some prompt ∧
      Courier.May system.courier (.refuse (prompt.queued id))
  | .report id result _ _ => ∃ prompt, system.requests.lookup id = some prompt ∧
      Courier.May system.courier (.report (prompt.queued id) result)
  | .abandon id => system.Phased id .queued
  | .name => True
  | .courier action => Courier.May system.courier action ∧ system.Elsewhere action

namespace System

variable (system : System)

instance (id : Nat) (phase : Phase) : Decidable (system.Phased id phase) :=
  inferInstanceAs (Decidable (∃ _, _ = some _ ∧ _))

instance (name : Nat) : Decidable (system.Foreign name) := inferInstanceAs (Decidable (_ ∧ _))

instance : ∀ action, Decidable (system.Elsewhere action)
  | .send _ => inferInstanceAs (Decidable (_ ∧ _ ∧ ∀ _, _ = some _ → _))
  | .refuse _ | .report _ _ => inferInstanceAs (Decidable (_ = _))
  | .withdraw _ => inferInstanceAs (Decidable (_ ∧ _))
  | .type _ _ => inferInstanceAs (Decidable (_ ≠ _))
  | .push _ | .unqueue _ | .receive _ | .begin _ | .check _ | .finish _ | .panic | .close | .hold _
  | .release _ | .drained => .isTrue trivial

end System

instance : ∀ action, Decidable (IsOther action)
  | .authorize _ _ | .beginDispatch (.implementation _ _) _ _ => .isFalse not_false
  | .finishDispatch result _ => match result with
    | ⟨.implementation request attempt, _, _⟩ => .isFalse fun other => other request attempt rfl
    | ⟨.interview _ _, _, _⟩ => .isTrue fun _ _ => nofun
  | .beginDispatch (.interview _ _) _ _ | .post .. | .submit .. | .revise .. | .cancelAnswersFrom _
  | .failed .. | .retry | .cancel | .pin _ | .mark .. => .isTrue trivial

instance (system : System) : ∀ action, Decidable (system.May action)
  | .implement _ _ _ _ _ => inferInstanceAs (Decidable (_ ∧ ∀ _ _, _ = some _ → _))
  | .send _ | .closed _ _ _ | .keep _ => inferInstanceAs (Decidable (_ ∧ _))
  | .drop _ => inferInstanceAs (Decidable (_ = _))
  | .other _ => inferInstanceAs (Decidable (IsOther _))
  | .look _ _ | .sealAttempt _ _ => inferInstanceAs (Decidable (_ ∧ _ ∧ _))
  | .begin _ _ _ | .refuse _ _ _ => inferInstanceAs (Decidable (_ ∧ ∃ _, _ = some _ ∧ _))
  | .turnBack _ _ _ | .report _ _ _ _ => inferInstanceAs (Decidable (∃ _, _ = some _ ∧ _))
  | .abandon _ => inferInstanceAs (Decidable (System.Phased _ _ _))
  | .name => .isTrue trivial
  | .courier _ => inferInstanceAs (Decidable (_ ∧ _))

end ProgressiveReviewer.Implementation
