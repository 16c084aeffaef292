import ProgressiveReviewer.Explore.Source
import Mathlib.Data.List.Infix

/-! What a reviewer expects of the agents whose hooks reach it, and the prompts it blocks
meanwhile (`agent-hooks/src/listener.rs`, `wire.rs`). The mutex makes each change one step;
the socket and the JSON of a report are left out. -/

namespace ProgressiveReviewer.Hooks

open Explore (trim)

/-- An agent that runs the reviewer's hooks, as they name it. -/
inductive HookedAgent where
  | pane (pane : String) (session : Option String)
  | codex (session : String)
  deriving DecidableEq, Repr

/-- What the expectations of an agent are kept under. -/
inductive Named where
  | pane (pane : String)
  | session (session : String)
  deriving DecidableEq, Repr

def HookedAgent.named : HookedAgent → Named
  | .pane id _ => .pane id
  | .codex id => .session id

inductive Awaiting where
  | resume (session : String)
  | prompt (session : Option String) (text : String)
  deriving DecidableEq, Repr

inductive Heard where
  | resumed
  | blocked (prompt : String)
  | submitted
  | joined (left : String)
  | stopped
  deriving DecidableEq, Repr

structure Awaited where
  id : Nat
  awaiting : Awaiting
  block : String
  heard : Option Heard
  deriving DecidableEq, Repr

/-- `str::contains`. -/
def contains (text part : String) : Bool := part.toList <:+: text.toList

/-- The text without the first occurrence of `part`. -/
def removeFirst (part : List Char) : List Char → List Char
  | [] => []
  | char :: rest =>
    if part.isPrefixOf (char :: rest) then (char :: rest).drop part.length
    else char :: removeFirst part rest

namespace Awaited

variable (awaited : Awaited)

/-- Whether a prompt reached another session than the expected one, when both are known. -/
def onAnotherSession (session : Option String) : Bool :=
  match awaited.awaiting with
  | .prompt (some expected) _ => session.any (· ≠ expected)
  | _ => false

def blocks (prompt : String) (session : Option String) : Bool :=
  match awaited.awaiting with
  | .resume _ => true
  | .prompt _ text =>
    awaited.heard.isNone && (awaited.onAnotherSession session || trim prompt ≠ trim text)

def hears (prompt : String) (session : Option String) (blocked : Bool) : Option Heard :=
  match awaited.awaiting with
  | .resume _ => if blocked then some (.blocked prompt) else none
  | .prompt _ text =>
    -- A prompt without the reviewer's is someone else's: the reviewer's may still come.
    if contains prompt (trim text) then
      some (if !blocked then .submitted
        else if awaited.onAnotherSession session ∨ trim prompt = trim text then .stopped
        else .joined (trim (String.ofList (removeFirst (trim text).toList prompt.toList))))
    else none

end Awaited

/-- What the reviewer expects from each agent. `next` counts in a `u64`. -/
structure Expectations where
  agents : Named → Option (List Awaited)
  next : Nat

/-- The handle of an expectation. -/
structure Expectation where
  agent : Named
  id : Nat
  deriving DecidableEq, Repr

inductive SessionSource where
  | resume
  | other
  deriving DecidableEq, Repr

inductive AgentEvent where
  | sessionStarted (session : String) (source : SessionSource)
  | promptSubmitted (prompt : String) (session : Option String)
  deriving DecidableEq, Repr

/-- An event of an agent, as its hook reports it. -/
structure Report where
  pane : Option String
  event : AgentEvent
  deriving DecidableEq, Repr

namespace Expectations

def new : Expectations := ⟨fun _ => none, 0⟩

variable (expected : Expectations)

/-- What is armed for an agent. -/
def armed (agent : Named) : List Awaited := (expected.agents agent).getD []

def expect (agent : HookedAgent) (awaiting : Awaiting) (block : String) :
    Expectation × Expectations :=
  (⟨agent.named, expected.next⟩,
    { agents := Function.update expected.agents agent.named
        (some (expected.armed agent.named ++ [⟨expected.next, awaiting, block, none⟩]))
      next := expected.next + 1 })

def expectResume (agent : HookedAgent) (session block : String) : Expectation × Expectations :=
  expected.expect agent (.resume session) block

def expectPrompt (agent : HookedAgent) (text block : String) : Expectation × Expectations :=
  let session := match agent with
    | .pane _ session => session
    -- The expectation is the session's already.
    | .codex _ => none
  expected.expect agent (.prompt session text) block

/-- Change the expectations of an agent that has some. -/
def mapArmed (agent : Named) (change : Awaited → Awaited) : Expectations :=
  { expected with
    agents := Function.update expected.agents agent ((expected.agents agent).map (·.map change)) }

def resumed (agent : Named) (session : String) : Expectations :=
  expected.mapArmed agent fun awaited =>
    if awaited.awaiting = .resume session ∧ awaited.heard.isNone then
      { awaited with heard := some .resumed }
    else awaited

/-- Why the reviewer blocks a prompt of an agent, if it does. -/
def block (agent : Named) (prompt : String) (session : Option String) : Option String :=
  ((expected.armed agent).find? (·.blocks prompt session)).map (·.block)

def submitted (agent : Named) (prompt : String) (session : Option String) :
    Option String × Expectations :=
  let block := expected.block agent prompt session
  (block, expected.mapArmed agent fun awaited =>
    if awaited.heard.isNone then
      { awaited with heard := awaited.hears prompt session block.isSome }
    else awaited)

/-- Take the event that a hook sends: the answer it gets, if it waits for one, is why its
prompt is blocked. -/
def take (report : Report) : Option (Option String) × Expectations :=
  match report.event with
  | .sessionStarted session .resume =>
    match report.pane with
    | some pane => (none, expected.resumed (.pane pane) session)
    | none => (none, expected)
  | .sessionStarted _ .other => (none, expected)
  | .promptSubmitted prompt session =>
    let agent := match report.pane, session with
      | some pane, _ => some (.pane pane)
      | none, some session => some (Named.session session)
      | none, none => none
    match agent with
    | some agent =>
      let (block, expected) := expected.submitted agent prompt session
      (some block, expected)
    | none => (some none, expected)

/-- The reviewer drops an expectation. -/
def drop (expectation : Expectation) : Expectations :=
  match expected.agents expectation.agent with
  | some armed =>
    let left := armed.filter fun awaited => awaited.id ≠ expectation.id
    { expected with
      agents := Function.update expected.agents expectation.agent
        (if left.isEmpty then none else some left) }
  | none => expected

/-- What the reviewer finds when it waits on an expectation. -/
def wait (expectation : Expectation) : Option Heard :=
  ((expected.armed expectation.agent).find? (·.id = expectation.id)).bind (·.heard)

end Expectations

inductive Event where
  | expectResume (agent : HookedAgent) (session block : String)
  | expectPrompt (agent : HookedAgent) (text block : String)
  | drop (expectation : Expectation)
  | take (report : Report)
  deriving DecidableEq, Repr

namespace Expectations

variable (expected : Expectations)

def step : Event → Expectations
  | .expectResume agent session block => (expected.expectResume agent session block).2
  | .expectPrompt agent text block => (expected.expectPrompt agent text block).2
  | .drop expectation => expected.drop expectation
  | .take report => (expected.take report).2

def run (events : List Event) : Expectations := events.foldl step expected

end Expectations

end ProgressiveReviewer.Hooks
