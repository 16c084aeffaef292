import ProgressiveReviewer.Library.Runs
import Mathlib.Data.Finset.Card
import Mathlib.Data.List.Count
import Mathlib.Data.List.Nodup
import Mathlib.Data.List.Perm.Basic
import Mathlib.Tactic.Basic

/-! The courier that types prompts on a thread of its own, and the gate that holds it while an
agent is moved: every interleaving of the worker, the courier's thread, the owners that withdraw
prompts and the threads that hold them. -/

namespace ProgressiveReviewer.Prompts

open Library

inductive PromptError
  | cancelled
  | delivery (message : String)
  | notStarted
  | blocked (left : String)
  | unknown (message : String)
  deriving DecidableEq, Repr

/-- A prompt for the courier. The flag by which its owner withdraws it and the closure that
takes its outcome are shared values, known by their identities. -/
structure QueuedPrompt where
  agent : String
  text : String
  cancelled : Option Nat
  outcome : Nat
  deriving DecidableEq, Repr

structure GateState where
  holds : Nat
  sending : Bool
  queued : Nat
  deriving DecidableEq, Repr

namespace PromptGate

variable (state : GateState)

def queue : GateState := { state with queued := state.queued + 1 }

def unqueue : GateState := { state with queued := state.queued - 1 }

def begin : GateState := { state with sending := true }

def sent : GateState := { state with sending := false, queued := state.queued - 1 }

def hold : GateState := { state with holds := state.holds + 1 }

def release : GateState := { state with holds := state.holds - 1 }

end PromptGate

/-- Where the worker is in `Courier::send`. -/
inductive Sending
  | idle
  | counted (prompt : QueuedPrompt)
  | refused (prompt : QueuedPrompt)
  deriving DecidableEq, Repr

/-- Where the courier's thread is. -/
inductive CourierThread
  | receiving
  | waiting (prompt : QueuedPrompt)
  | begun (prompt : QueuedPrompt)
  | typing (prompt : QueuedPrompt)
  | reporting (prompt : QueuedPrompt) (result : Except PromptError Unit)
  | reported (prompt : QueuedPrompt)
  | unwinding
  | stopped
  deriving DecidableEq, Repr

/-- The shared gate, the channel, the holds that live, the flags that are set and both threads,
with what was handed over, typed, reported and lost so far. -/
structure Courier where
  gate : GateState
  live : Finset Nat
  withdrawn : Finset Nat
  parcels : List QueuedPrompt
  worker : Sending
  thread : CourierThread
  handed : List QueuedPrompt
  typed : List QueuedPrompt
  outcomes : List (QueuedPrompt × Except PromptError Unit)
  unwound : List QueuedPrompt
  undelivered : List QueuedPrompt

inductive Action
  | send (prompt : QueuedPrompt)
  | push (prompt : QueuedPrompt)
  | refuse (prompt : QueuedPrompt)
  | unqueue (prompt : QueuedPrompt)
  | receive (prompt : QueuedPrompt)
  | begin (prompt : QueuedPrompt)
  | check (prompt : QueuedPrompt)
  | type (prompt : QueuedPrompt) (result : Except PromptError Unit)
  | report (prompt : QueuedPrompt) (result : Except PromptError Unit)
  | finish (prompt : QueuedPrompt)
  | panic
  | close
  | withdraw (flag : Nat)
  | hold (id : Nat)
  | release (id : Nat)
  | drained

namespace CourierThread

/-- The prompt in the thread's hands that it has not typed. -/
def untyped : CourierThread → List QueuedPrompt
  | waiting prompt | begun prompt | typing prompt => [prompt]
  | _ => []

/-- The prompt in the thread's hands that has no outcome. -/
def unreported : CourierThread → List QueuedPrompt
  | waiting prompt | begun prompt | typing prompt | reporting prompt _ => [prompt]
  | _ => []

def isSending : CourierThread → Bool
  | begun _ | typing _ | reporting _ _ | reported _ => true
  | _ => false

/-- A prompt that was reported and is still counted. -/
def uncounted : CourierThread → Nat
  | reported _ => 1
  | _ => 0

def panicked : CourierThread → Bool
  | unwinding | stopped => true
  | _ => false

/-- How many steps the prompt in the thread's hands still takes. -/
def left : CourierThread → Nat
  | waiting _ => 5
  | begun _ => 4
  | typing _ => 3
  | reporting _ _ => 2
  | reported _ => 1
  | _ => 0

/-- Sending a prompt panics in the port or in its outcome. -/
def mayPanic : CourierThread → Bool
  | typing _ | reporting _ _ | reported _ => true
  | _ => false

end CourierThread

namespace Sending

def unreported : Sending → List QueuedPrompt
  | counted prompt => [prompt]
  | _ => []

def uncounted : Sending → Nat
  | refused _ => 1
  | _ => 0

def left : Sending → Nat
  | idle => 0
  | counted _ => 7
  | refused _ => 1

end Sending

namespace Action

/-- The steps of the worker and of the courier's thread, but for new prompts and panics. -/
def delivers : Action → Bool
  | push _ | refuse _ | unqueue _ | receive _ | begin _ | check _ | type _ _ | report _ _
  | finish _ => true
  | _ => false

def countsOff : Action → Bool
  | unqueue _ | finish _ | panic => true
  | _ => false

end Action

namespace QueuedPrompt

def isWithdrawn (prompt : QueuedPrompt) (withdrawn : Finset Nat) : Bool :=
  prompt.cancelled.any (· ∈ withdrawn)

end QueuedPrompt

namespace Courier

def start : Courier where
  gate := ⟨0, false, 0⟩
  live := ∅
  withdrawn := ∅
  parcels := []
  worker := .idle
  thread := .receiving
  handed := []
  typed := []
  outcomes := []
  unwound := []
  undelivered := []

def stoppedError : PromptError :=
  .delivery "The reviewer prompt courier stopped; nothing was sent"

/-- Each action is one use of the gate, the channel, a flag, the port or an outcome. -/
def step (courier : Courier) : Action → Courier
  | .send prompt => { courier with
      gate := PromptGate.queue courier.gate
      worker := .counted prompt
      handed := courier.handed ++ [prompt] }
  | .push prompt => { courier with
      parcels := courier.parcels ++ [prompt]
      worker := .idle }
  | .refuse prompt => { courier with
      outcomes := courier.outcomes ++ [(prompt, .error stoppedError)]
      worker := .refused prompt }
  | .unqueue _ => { courier with
      gate := PromptGate.unqueue courier.gate
      worker := .idle }
  | .receive prompt => { courier with
      parcels := courier.parcels.tail
      thread := .waiting prompt }
  | .begin prompt => { courier with
      gate := PromptGate.begin courier.gate
      thread := .begun prompt }
  | .check prompt => { courier with
      thread := if prompt.isWithdrawn courier.withdrawn then .reporting prompt (.error .cancelled)
        else .typing prompt }
  | .type prompt result => { courier with
      typed := courier.typed ++ [prompt]
      thread := .reporting prompt result }
  | .report prompt result => { courier with
      outcomes := courier.outcomes ++ [(prompt, result)]
      thread := .reported prompt }
  | .finish _ => { courier with
      gate := PromptGate.sent courier.gate
      thread := .receiving }
  | .panic => { courier with
      gate := PromptGate.sent courier.gate
      unwound := courier.unwound ++ courier.thread.unreported
      thread := .unwinding }
  | .close => { courier with
      undelivered := courier.undelivered ++ courier.parcels
      parcels := []
      thread := .stopped }
  | .withdraw flag => { courier with withdrawn := insert flag courier.withdrawn }
  | .hold id => { courier with
      gate := PromptGate.hold courier.gate
      live := insert id courier.live }
  | .release id => { courier with
      gate := PromptGate.release courier.gate
      live := courier.live.erase id }
  | .drained => courier

/-- Where each action can happen. -/
def May (courier : Courier) : Action → Prop
  | .send prompt => courier.worker = .idle ∧ prompt.outcome ∉ courier.handed.map QueuedPrompt.outcome
  | .push prompt => courier.worker = .counted prompt ∧ courier.thread ≠ .stopped
  | .refuse prompt => courier.worker = .counted prompt ∧ courier.thread = .stopped
  | .unqueue prompt => courier.worker = .refused prompt
  | .receive prompt => courier.thread = .receiving ∧ courier.parcels.head? = some prompt
  | .begin prompt => courier.thread = .waiting prompt ∧ courier.gate.holds = 0
  | .check prompt => courier.thread = .begun prompt
  | .type prompt _ => courier.thread = .typing prompt
  | .report prompt result => courier.thread = .reporting prompt result
  | .finish prompt => courier.thread = .reported prompt
  | .panic => courier.thread.mayPanic = true
  | .close => courier.thread = .unwinding
  | .withdraw _ => True
  | .hold id => id ∉ courier.live
  | .release id => id ∈ courier.live
  | .drained => courier.gate.sending = false

instance (courier : Courier) : ∀ action, Decidable (courier.May action)
  | .send _ | .push _ | .refuse _ | .receive _ | .begin _ => inferInstanceAs (Decidable (_ ∧ _))
  | .unqueue _ | .check _ | .type _ _ | .report _ _ | .finish _ | .panic | .close | .drained =>
    inferInstanceAs (Decidable (_ = _))
  | .withdraw _ => .isTrue trivial
  | .hold _ => inferInstanceAs (Decidable (_ ∉ _))
  | .release _ => inferInstanceAs (Decidable (_ ∈ _))

def Reachable : Courier → Prop := Reaches step May start

end Courier

end ProgressiveReviewer.Prompts
