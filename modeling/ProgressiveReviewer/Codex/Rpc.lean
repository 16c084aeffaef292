import ProgressiveReviewer.Library.Json
import Mathlib.Logic.Function.Basic
import Mathlib.Logic.Relation
import Mathlib.Tactic.ByContra

/-! A client of the Codex daemon (`codex-daemon/src/rpc.rs`): threads that make requests, and the
connection's thread, which hears what the daemon says and sends what waits to be sent. Every
step that another thread can come between is a step here. What the daemon says, when it says it,
and when a limit runs out are left open. -/

namespace ProgressiveReviewer.Codex

open Library

/-- A request's result, or why it has none. -/
abbrev Answer := Except String Json

/-- What the daemon says to a client, besides the answers to its requests. -/
inductive Incoming where
  | notification (method : String) (params : Json)
  | request (id : Json) (method : String) (params : Json)
  /-- The connection ended, in these words: nothing more comes. -/
  | lost (why : String)

/-- The member of an object. -/
def get (name : String) : Json → Option Json
  | .object members => Json.last name members
  | _ => none

inductive Heard where
  | incoming (incoming : Incoming)
  /-- What may be the answer to the request `id`. -/
  | answer (id : Nat) (answer : Answer)
  | nothing

/-- The answer that a message without a method holds. -/
def answerIn (message : Json) : Answer :=
  match get "error" message with
  | some error =>
    .error (((get "message" error).bind Json.asText).getD "the Codex daemon refused the request")
  | none => .ok ((get "result" message).getD .null)

/-- What a text frame says; a frame that is no JSON says nothing. -/
def hear (frame : Option Json) : Heard :=
  match frame with
  | none => .nothing
  | some message =>
    match (get "method" message).bind Json.asText, get "id" message with
    | some method, some id => .incoming (.request id method ((get "params" message).getD .null))
    | some method, none => .incoming (.notification method ((get "params" message).getD .null))
    | none, some id =>
      match id.asBelow 18446744073709551616 with
      | some id => .answer id (answerIn message)
      | none => .nothing
    | none, none => .nothing

/-- What waits to be sent. -/
inductive Outgoing where
  | request (id : Nat) (method : String) (params : Json)
  /-- The client's answer to the daemon's own request. -/
  | reply (id : Json) (result : Answer)

/-- How far a request is. -/
inductive Stage where
  | numbered
  | registered
  | waiting
  /-- About to leave, and no longer to be answered. -/
  | leaving (answer : Answer)
  | returned (answer : Answer)

/-- A request that a thread of the client makes. -/
structure Call where
  method : String
  params : Json
  stage : Stage
  /-- What its channel holds. -/
  answers : List Answer
  /-- How many frames had been heard when it was registered. -/
  since : Nat
  /-- Registered after the requests that waited were told of the connection's end. -/
  late : Bool

/-- Where the connection's thread is. -/
inductive Thread where
  | checking
  | reading
  /-- Took the request out of those that wait, and sends it its answer. -/
  | delivering (id : Nat) (answer : Answer)
  | sending
  | ended (why : String)
  /-- Told the requests that waited why the connection ended. -/
  | drained (why : String)
  | finished (why : Option String) (told : Bool)

/-- Why the connection ended, once the requests that waited know. -/
def Thread.why : Thread → Option String
  | drained why => some why
  | finished why _ => why
  | _ => none

def Thread.isFinished : Thread → Bool
  | finished _ _ => true
  | _ => false

structure Client where
  next : Nat
  /-- The requests that wait for their answer. -/
  pending : List Nat
  calls : Nat → Option Call
  outgoing : List Outgoing
  /-- What was sent, in order. -/
  sent : List Outgoing
  /-- The text frames that were read, in order. -/
  heard : List (Option Json)
  /-- What the handler was given, in order. -/
  handled : List Incoming
  stopped : Bool
  thread : Thread

namespace Client

/-- A client that connected. -/
def connected : Client := ⟨1, [], fun _ => none, [], [], [], [], false, .checking⟩

variable (client : Client)

def put (id : Nat) (call : Call) : Client :=
  { client with calls := Function.update client.calls id (some call) }

/-- Take a text frame in: the handler gets it, or the request that it answers is taken out of
those that wait. -/
def read (frame : Option Json) : Client :=
  let client := { client with heard := client.heard ++ [frame] }
  match hear frame with
  | .incoming incoming =>
    { client with handled := client.handled ++ [incoming], thread := .sending }
  | .answer id answer =>
    if id ∈ client.pending then
      { client with pending := client.pending.filter (· ≠ id), thread := .delivering id answer }
    else { client with thread := .sending }
  | .nothing => { client with thread := .sending }

/-- Tell the requests that wait why the connection ended. -/
def drain (why : String) : Client :=
  { client with
    pending := []
    calls := fun id => (client.calls id).map fun call =>
      if id ∈ client.pending then { call with answers := call.answers ++ [.error why] } else call
    thread := .drained why }

/-- Tell the handler of the loss, unless the client was dropped. -/
def close (why : String) : Client :=
  if client.stopped then { client with thread := .finished (some why) false }
  else { client with
    handled := client.handled ++ [.lost why], thread := .finished (some why) true }

end Client

def timedOut (method seconds : String) : Answer :=
  .error ("the Codex daemon did not answer " ++ method ++ " within " ++ seconds ++ " s")

def unsent : Answer := .error "lost the Codex daemon"

/-- One step of one thread. -/
inductive Step : Client → Client → Prop where
  /-- `request` takes the next ID. -/
  | number {client : Client} (method : String) (params : Json) (kept : client.stopped = false) :
      Step client { client.put client.next ⟨method, params, .numbered, [], 0, false⟩ with
        next := client.next + 1 }
  | register {client : Client} {id : Nat} {call : Call} (held : client.calls id = some call)
      (stage : call.stage = .numbered) :
      Step client { client.put id { call with
          stage := .registered
          since := client.heard.length
          late := client.thread.why.isSome } with
        pending := client.pending ++ [id] }
  | submit {client : Client} {id : Nat} {call : Call} (held : client.calls id = some call)
      (stage : call.stage = .registered) (runs : client.thread.isFinished = false) :
      Step client { client.put id { call with stage := .waiting } with
        outgoing := client.outgoing ++ [.request id call.method call.params] }
  | refused {client : Client} {id : Nat} {call : Call} (held : client.calls id = some call)
      (stage : call.stage = .registered) (done : client.thread.isFinished = true) :
      Step client (client.put id { call with stage := .leaving unsent })
  | receive {client : Client} {id : Nat} {call : Call} {answer : Answer} {answers : List Answer}
      (held : client.calls id = some call) (stage : call.stage = .waiting)
      (next : call.answers = answer :: answers) :
      Step client (client.put id { call with stage := .leaving answer, answers })
  | giveUp {client : Client} {id : Nat} {call : Call} (seconds : String)
      (held : client.calls id = some call) (stage : call.stage = .waiting)
      (none : call.answers = []) :
      Step client (client.put id { call with stage := .leaving (timedOut call.method seconds) })
  | leave {client : Client} {id : Nat} {call : Call} {answer : Answer}
      (held : client.calls id = some call) (stage : call.stage = .leaving answer) :
      Step client { client.put id { call with stage := .returned answer } with
        pending := client.pending.filter (· ≠ id) }
  | reply {client : Client} (id : Json) (result : Answer) :
      Step client { client with outgoing := client.outgoing ++ [.reply id result] }
  /-- Dropping the client needs it for itself alone: no request is under way. -/
  | drop {client : Client} (idle : ∀ id call, client.calls id = some call →
        ∃ answer, call.stage = .returned answer) :
      Step client { client with stopped := true }
  | checks {client : Client} (at_ : client.thread = .checking) :
      Step client { client with
        thread := if client.stopped then .finished none false else .reading }
  | hears {client : Client} (frame : Option Json) (at_ : client.thread = .reading) :
      Step client (client.read frame)
  /-- Nothing came within the slice, or a frame that is no text. -/
  | quiet {client : Client} (at_ : client.thread = .reading) :
      Step client { client with thread := .sending }
  | breaks {client : Client} (why : String) (at_ : client.thread = .reading) :
      Step client { client with thread := .ended why }
  | delivers {client : Client} {id : Nat} {call : Call} {answer : Answer}
      (at_ : client.thread = .delivering id answer) (held : client.calls id = some call) :
      Step client { client.put id { call with answers := call.answers ++ [answer] } with
        thread := .sending }
  | sends {client : Client} {message : Outgoing} {rest : List Outgoing}
      (at_ : client.thread = .sending) (first : client.outgoing = message :: rest) :
      Step client { client with outgoing := rest, sent := client.sent ++ [message] }
  | sentAll {client : Client} (at_ : client.thread = .sending) (none : client.outgoing = []) :
      Step client { client with thread := .checking }
  | sendFails {client : Client} {message : Outgoing} {rest : List Outgoing} (error : String)
      (at_ : client.thread = .sending) (first : client.outgoing = message :: rest) :
      Step client { client with
        outgoing := rest, thread := .ended ("lost the Codex daemon: " ++ error) }
  | drains {client : Client} {why : String} (at_ : client.thread = .ended why) :
      Step client (client.drain why)
  | closes {client : Client} {why : String} (at_ : client.thread = .drained why) :
      Step client (client.close why)

/-- The states that the threads reach, whatever the order of their steps. -/
def Reachable : Client → Prop := Relation.ReflTransGen Step .connected

end ProgressiveReviewer.Codex

/-! Whatever the order of the threads' steps, a request returns its own answer or the reason why
it has none, and the handler hears the rest in order. -/

namespace ProgressiveReviewer.Codex

open Library

/-- The answer to the request `id` that a frame holds. -/
def answerTo (id : Nat) (frame : Option Json) : Option Answer :=
  match hear frame with
  | .answer other answer => if other = id then some answer else none
  | _ => none

/-- What the handler is given of a frame. -/
def incomingOf (frame : Option Json) : Option Incoming :=
  match hear frame with
  | .incoming incoming => some incoming
  | _ => none

def requestOf (id : Nat) : Outgoing → Option (String × Json)
  | .request other method params => if other = id then some (method, params) else none
  | .reply _ _ => none

/-- Still to be answered. -/
def Stage.isOpen : Stage → Bool
  | registered | waiting => true
  | _ => false

def Stage.outcome : Stage → Option Answer
  | leaving answer | returned answer => some answer
  | _ => none

namespace Client

variable (client : Client)

/-- The first answer to the request that was heard since it was registered. -/
def first (id : Nat) (call : Call) : Option Answer :=
  (client.heard.drop call.since).findSome? (answerTo id)

/-- The answer was heard, or tells why the connection ended. -/
def Justifies (id : Nat) (call : Call) (answer : Answer) : Prop :=
  client.first id call = some answer ∨
    ∃ why, client.thread.why = some why ∧ answer = .error why

/-- What a request may return. -/
def Outcome (id : Nat) (call : Call) (answer : Answer) : Prop :=
  client.Justifies id call answer ∨ (∃ seconds, answer = timedOut call.method seconds) ∨
    (client.thread.isFinished = true ∧ answer = unsent)

/-- What holds of every request. -/
structure CallInv (id : Nat) (call : Call) : Prop where
  since : call.since ≤ client.heard.length
  unheard : id ∈ client.pending → client.first id call = none ∧ call.answers = []
  early : call.stage = .numbered → id ∉ client.pending ∧ call.answers = [] ∧
    ∀ answer, client.thread ≠ .delivering id answer
  delivers : ∀ answer, client.thread = .delivering id answer → client.first id call = some answer
  owed : call.stage.isOpen = true →
    id ∈ client.pending ∨ (∃ answer, client.thread = .delivering id answer) ∨ call.answers ≠ []
  late : client.thread.why.isSome = true → id ∈ client.pending → call.late = true
  answers : ∀ answer ∈ call.answers, client.Justifies id call answer
  outcome : ∀ answer, call.stage.outcome = some answer → client.Outcome id call answer
  /-- Its request is sent once at most, and not before it is submitted. -/
  sent : (client.sent ++ client.outgoing).filterMap (requestOf id) = [] ∨
    (client.sent ++ client.outgoing).filterMap (requestOf id) = [(call.method, call.params)] ∧
      call.stage ≠ .numbered ∧ call.stage ≠ .registered

/-- What the handler is told when the connection's thread ends. -/
def farewell : Thread → List Incoming
  | .finished (some why) true => [.lost why]
  | _ => []

/-- What holds of the client in every state that is reached. -/
structure Inv : Prop where
  calls : ∀ id call, client.calls id = some call → client.CallInv id call
  fresh : ∀ id, client.next ≤ id → client.calls id = none
  known : ∀ id, client.calls id = none →
    id ∉ client.pending ∧ (∀ answer, client.thread ≠ .delivering id answer) ∧
      (client.sent ++ client.outgoing).filterMap (requestOf id) = []
  handled : client.handled = client.heard.filterMap incomingOf ++ farewell client.thread

theorem inv_connected : connected.Inv where
  calls id call held := by cases held
  fresh id le := rfl
  known id none := by simp [connected]
  handled := rfl

variable {client} {after : Client} {id : Nat} {call : Call}

section Mono

variable {call' : Call} {answer : Answer}
  (first : client.first id call = some answer → after.first id call' = some answer)
  (why : ∀ why, client.thread.why = some why → after.thread.why = some why)

include first why

theorem Justifies.mono (justified : client.Justifies id call answer) :
    after.Justifies id call' answer := by
  rcases justified with heard | ⟨words, ended, same⟩
  · exact .inl (first heard)
  · exact .inr ⟨words, why words ended, same⟩

theorem Outcome.mono (method : call'.method = call.method)
    (finished : client.thread.isFinished = true → after.thread.isFinished = true)
    (reached : client.Outcome id call answer) : after.Outcome id call' answer := by
  rcases reached with justified | late | ⟨done, same⟩
  · exact .inl (justified.mono first why)
  · exact .inr (.inl (method ▸ late))
  · exact .inr (.inr ⟨finished done, same⟩)

end Mono

/-- What a step leaves of the connection's thread, as far as one request goes. -/
structure Quiet (id : Nat) (before after : Thread) : Prop where
  delivers : ∀ answer, after = .delivering id answer ↔ before = .delivering id answer
  why : after.why = before.why
  finished : before.isFinished = true → after.isFinished = true

theorem Quiet.refl (id : Nat) (thread : Thread) : Quiet id thread thread :=
  ⟨fun _ => Iff.rfl, rfl, fun done => done⟩

/-- What the client has of a request besides its call. -/
structure Frame (client after : Client) (id : Nat) : Prop where
  heard : after.heard = client.heard
  pending : id ∈ after.pending ↔ id ∈ client.pending
  thread : Quiet id client.thread after.thread
  sent : (after.sent ++ after.outgoing).filterMap (requestOf id) = [] ∨
    (after.sent ++ after.outgoing).filterMap (requestOf id) =
      (client.sent ++ client.outgoing).filterMap (requestOf id)

theorem Frame.first (frame : Frame client after id) : after.first id call = client.first id call := by
  rw [Client.first, frame.heard, Client.first]

theorem Frame.justifies {answer : Answer} (frame : Frame client after id)
    (justified : client.Justifies id call answer) : after.Justifies id call answer :=
  justified.mono (fun held => frame.first ▸ held) fun _ held => frame.thread.why ▸ held

theorem Frame.outcome {answer : Answer} (frame : Frame client after id)
    (reached : client.Outcome id call answer) : after.Outcome id call answer :=
  reached.mono (fun held => frame.first ▸ held) (fun _ held => frame.thread.why ▸ held) rfl
    frame.thread.finished

/-- A step that leaves a request and its messages alone. -/
theorem CallInv.frame (inv : client.CallInv id call) (frame : Frame client after id) :
    after.CallInv id call where
  since := frame.heard ▸ inv.since
  unheard := by
    rw [frame.pending, frame.first]
    exact inv.unheard
  early := by simpa only [frame.pending, ne_eq, frame.thread.delivers] using inv.early
  delivers answer delivering := by
    rw [frame.first]
    exact inv.delivers answer ((frame.thread.delivers answer).mp delivering)
  owed := by simpa only [frame.pending, frame.thread.delivers] using inv.owed
  late := by
    rw [frame.thread.why, frame.pending]
    exact inv.late
  answers answer mem := frame.justifies (inv.answers answer mem)
  outcome answer reached := frame.outcome (inv.outcome answer reached)
  sent := by
    rcases frame.sent with none | same
    · exact .inl none
    · rw [same]
      exact inv.sent

/-- A step that leaves every request alone. -/
theorem Inv.quiet (inv : client.Inv) (calls : after.calls = client.calls)
    (next : after.next = client.next) (frame : ∀ id, Frame client after id)
    (handled : after.handled = after.heard.filterMap incomingOf ++ farewell after.thread) :
    after.Inv where
  calls id call held := (inv.calls id call (calls ▸ held)).frame (frame id)
  fresh id le := by
    rw [calls]
    exact inv.fresh id (next ▸ le)
  known id none := by
    obtain ⟨absent, elsewhere, unsent⟩ := inv.known id (calls ▸ none)
    refine ⟨mt (frame id).pending.mp absent,
      fun answer at_ => elsewhere answer (((frame id).thread.delivers answer).mp at_), ?_⟩
    rcases (frame id).sent with none | same
    · exact none
    · rw [same, unsent]
  handled := handled

/-- A step of one request. -/
theorem Inv.update (inv : client.Inv) (calls : after.calls = Function.update client.calls id (some call))
    (next : client.next ≤ after.next) (bound : id < after.next)
    (frame : ∀ other, other ≠ id → Frame client after other) (step : after.CallInv id call)
    (heard : after.heard = client.heard) (handled : after.handled = client.handled)
    (told : farewell after.thread = farewell client.thread) : after.Inv where
  calls other call' held := by
    by_cases same : other = id
    · subst same
      rw [calls, Function.update_self, Option.some.injEq] at held
      exact held ▸ step
    · rw [calls, Function.update_of_ne same] at held
      exact (inv.calls other call' held).frame (frame other same)
  fresh other le := by
    rw [calls, Function.update_of_ne (by omega)]
    exact inv.fresh other (Nat.le_trans next le)
  known other none := by
    by_cases same : other = id
    · subst same
      rw [calls, Function.update_self] at none
      cases none
    · rw [calls, Function.update_of_ne same] at none
      obtain ⟨absent, elsewhere, unsent⟩ := inv.known other none
      refine ⟨mt (frame other same).pending.mp absent,
        fun answer at_ => elsewhere answer (((frame other same).thread.delivers answer).mp at_), ?_⟩
      rcases (frame other same).sent with none | equal
      · exact none
      · rw [equal, unsent]
  handled := by rw [handled, inv.handled, heard, told]

/-- A request that was numbered has an ID below the next. -/
theorem Inv.lt_next (inv : client.Inv) (held : client.calls id = some call) : id < client.next := by
  by_contra le
  rw [inv.fresh id (Nat.not_lt.mp le)] at held
  cases held

/-! ## Steps of the threads that make requests -/

theorem requests_append (id : Nat) (sent outgoing : List Outgoing) (message : Outgoing) :
    (sent ++ (outgoing ++ [message])).filterMap (requestOf id) =
      (sent ++ outgoing).filterMap (requestOf id) ++ (requestOf id message).toList := by
  rw [← List.append_assoc, List.filterMap_append]
  cases found : requestOf id message <;> simp [found]

theorem inv_number (inv : client.Inv) (method : String) (params : Json) :
    Inv { client.put client.next ⟨method, params, .numbered, [], 0, false⟩ with
      next := client.next + 1 } := by
  obtain ⟨absent, elsewhere, unsent⟩ := inv.known client.next (inv.fresh _ (Nat.le_refl _))
  refine inv.update rfl (Nat.le_succ _) (Nat.lt_succ_self _)
    (fun other _ => ⟨rfl, Iff.rfl, .refl _ _, .inr rfl⟩) ?_ rfl rfl rfl
  exact
    { since := Nat.zero_le _
      unheard := fun mem => absurd mem absent
      early := fun _ => ⟨absent, rfl, elsewhere⟩
      delivers := fun answer at_ => absurd at_ (elsewhere answer)
      owed := fun isOpen => by cases isOpen
      late := fun _ mem => absurd mem absent
      answers := by simp
      outcome := fun answer reached => by cases reached
      sent := .inl unsent }

theorem inv_register (inv : client.Inv) (held : client.calls id = some call)
    (stage : call.stage = .numbered) :
    Inv { client.put id { call with
        stage := .registered
        since := client.heard.length
        late := client.thread.why.isSome } with
      pending := client.pending ++ [id] } := by
  have old := inv.calls id call held
  obtain ⟨absent, empty, elsewhere⟩ := old.early stage
  refine inv.update rfl (Nat.le_refl _) (inv.lt_next held)
    (fun other differs => ⟨rfl, by simp [differs], .refl _ _, .inr rfl⟩) ?_ rfl rfl rfl
  exact
    { since := Nat.le_refl _
      unheard := fun _ => ⟨by simp [first, put], empty⟩
      early := fun early => by cases early
      delivers := fun answer at_ => absurd at_ (elsewhere answer)
      owed := fun _ => .inl (by simp)
      late := fun ended _ => ended
      answers := by simp [empty]
      outcome := fun answer reached => by cases reached
      sent := .inl (by
        rcases old.sent with none | ⟨_, other, _⟩
        · exact none
        · exact absurd stage other) }

/-- A step of a request that keeps its channel or takes from it. -/
theorem CallInv.advance {call' : Call} (inv : client.CallInv id call)
    (heard : after.heard = client.heard) (thread : after.thread = client.thread)
    (pending : id ∈ after.pending → id ∈ client.pending)
    (waits : call'.stage.isOpen = true → id ∈ client.pending → id ∈ after.pending)
    (method : call'.method = call.method) (params : call'.params = call.params)
    (since : call'.since = call.since) (late : call'.late = call.late)
    (begun : call'.stage ≠ .numbered ∧ call'.stage ≠ .registered)
    (answers : call'.answers = call.answers ∨ ∃ answer, call.answers = answer :: call'.answers)
    (isOpen : call'.stage.isOpen = true →
      call.stage.isOpen = true ∧ call'.answers = call.answers)
    (outcome : ∀ answer, call'.stage.outcome = some answer → client.Outcome id call answer)
    (sent : (after.sent ++ after.outgoing).filterMap (requestOf id) = [] ∨
      (after.sent ++ after.outgoing).filterMap (requestOf id) = [(call.method, call.params)]) :
    after.CallInv id call' := by
  have first : after.first id call' = client.first id call := by
    rw [Client.first, heard, since, Client.first]
  have justifies : ∀ answer, client.Justifies id call answer → after.Justifies id call' answer := by
    intro answer
    rw [Justifies, Justifies, first, thread]
    exact fun justified => justified
  have subset : ∀ answer ∈ call'.answers, answer ∈ call.answers := by
    intro answer mem
    rcases answers with same | ⟨head, same⟩
    · exact same ▸ mem
    · exact same ▸ List.mem_cons_of_mem _ mem
  exact
    { since := by rw [heard, since]; exact inv.since
      unheard := fun mem => by
        obtain ⟨unheard, empty⟩ := inv.unheard (pending mem)
        refine ⟨first ▸ unheard, ?_⟩
        rcases answers with same | ⟨head, same⟩
        · exact same.trans empty
        · cases same.symm.trans empty
      early := fun early => absurd early begun.1
      delivers := fun answer at_ => first ▸ inv.delivers answer (thread ▸ at_)
      owed := fun still => by
        obtain ⟨was, same⟩ := isOpen still
        rw [thread, same]
        exact (inv.owed was).imp_left (waits still)
      late := fun ended mem => late ▸ inv.late (thread ▸ ended) (pending mem)
      answers := fun answer mem => justifies answer (inv.answers answer (subset answer mem))
      outcome := fun answer reached => by
        rw [Outcome, method, thread]
        exact (outcome answer reached).imp_left (justifies answer)
      sent := by
        rw [method, params]
        exact sent.imp_right fun one => ⟨one, begun⟩ }

theorem inv_submit (inv : client.Inv) (held : client.calls id = some call)
    (stage : call.stage = .registered) :
    Inv { client.put id { call with stage := .waiting } with
      outgoing := client.outgoing ++ [.request id call.method call.params] } := by
  have old := inv.calls id call held
  have unsent : (client.sent ++ client.outgoing).filterMap (requestOf id) = [] :=
    old.sent.resolve_right fun sent => sent.2.2 stage
  refine inv.update rfl (Nat.le_refl _) (inv.lt_next held)
    (fun other differs => ⟨rfl, Iff.rfl, .refl _ _, .inr ?_⟩) ?_ rfl rfl rfl
  · simp [requestOf, put, Ne.symm differs]
  · refine old.advance rfl rfl (fun mem => mem) (fun _ mem => mem) rfl rfl rfl rfl
      ⟨by simp, by simp⟩ (.inl rfl) (fun _ => ⟨by simp [stage, Stage.isOpen], rfl⟩)
      (fun answer reached => by cases reached) (.inr ?_)
    exact (requests_append id client.sent client.outgoing _).trans (by rw [unsent]; simp [requestOf])

/-- A request leaves with the answer that it read, or with the reason why it has none. -/
theorem inv_leaving (inv : client.Inv) (held : client.calls id = some call) {answer : Answer}
    {answers : List Answer} (left : answers = call.answers ∨ call.answers = answer :: answers)
    (outcome : client.Outcome id call answer) :
    Inv (client.put id { call with stage := .leaving answer, answers := answers }) := by
  have old := inv.calls id call held
  refine inv.update rfl (Nat.le_refl _) (inv.lt_next held)
    (fun other _ => ⟨rfl, Iff.rfl, .refl _ _, .inr rfl⟩) ?_ rfl rfl rfl
  refine old.advance rfl rfl (fun mem => mem) (fun _ mem => mem) rfl rfl rfl rfl
    ⟨by simp, by simp⟩ (left.imp_right fun same => ⟨answer, same⟩) (fun still => by cases still)
    (fun other reached => ?_) (old.sent.imp_right And.left)
  obtain rfl : answer = other := by simpa [Stage.outcome] using reached
  exact outcome

theorem inv_leave (inv : client.Inv) (held : client.calls id = some call) {answer : Answer}
    (stage : call.stage = .leaving answer) :
    Inv { client.put id { call with stage := .returned answer } with
      pending := client.pending.filter (· ≠ id) } := by
  have old := inv.calls id call held
  refine inv.update rfl (Nat.le_refl _) (inv.lt_next held)
    (fun other differs => ⟨rfl, by simp [differs], .refl _ _, .inr rfl⟩) ?_ rfl rfl rfl
  refine old.advance rfl rfl (fun mem => (List.mem_filter.mp mem).1) (fun still => by cases still)
    rfl rfl rfl rfl ⟨by simp, by simp⟩ (.inl rfl) (fun still => by cases still)
    (fun other reached => old.outcome other ?_) (old.sent.imp_right And.left)
  rw [stage]
  exact reached

/-! ## Steps of the connection's thread -/

/-- A step of the thread between two frames. -/
theorem Inv.turns (inv : client.Inv) {thread : Thread} {sent outgoing : List Outgoing} {stopped : Bool}
    (from_ : ∀ id answer, client.thread ≠ .delivering id answer)
    (to_ : ∀ id answer, thread ≠ .delivering id answer) (why : thread.why = client.thread.why)
    (finished : client.thread.isFinished = true → thread.isFinished = true)
    (told : farewell thread = farewell client.thread)
    (messages : ∀ id, (sent ++ outgoing).filterMap (requestOf id) = [] ∨
      (sent ++ outgoing).filterMap (requestOf id) =
        (client.sent ++ client.outgoing).filterMap (requestOf id)) :
    Inv { client with thread, sent, outgoing, stopped } :=
  inv.quiet rfl rfl (fun id => ⟨rfl, Iff.rfl,
    ⟨fun answer => iff_of_false (to_ id answer) (from_ id answer), why, finished⟩, messages id⟩)
    (by rw [told]; exact inv.handled)

theorem inv_delivers (inv : client.Inv) (held : client.calls id = some call) {answer : Answer}
    (at_ : client.thread = .delivering id answer) :
    Inv { client.put id { call with answers := call.answers ++ [answer] } with
      thread := .sending } := by
  have old := inv.calls id call held
  have first := old.delivers answer at_
  refine inv.update rfl (Nat.le_refl _) (inv.lt_next held)
    (fun other differs => ⟨rfl, Iff.rfl, ⟨fun answer => ?_, by rw [at_]; rfl, by simp [at_, Thread.isFinished]⟩,
      .inr rfl⟩) ?_ rfl rfl (by rw [at_]; rfl)
  · simp [at_, Ne.symm differs]
  · exact
      { since := old.since
        unheard := fun mem => by
          have unheard := (old.unheard mem).1
          rw [first] at unheard
          cases unheard
        early := fun early => absurd at_ ((old.early early).2.2 answer)
        delivers := fun other at_ => by cases at_
        owed := fun _ => .inr (.inr (by simp))
        late := fun ended _ => by cases ended
        answers := fun other mem => by
          rcases List.mem_append.mp mem with mem | mem
          · exact (old.answers other mem).mono (by exact fun held => held) (by simp [at_, Thread.why])
          · rw [List.mem_singleton.mp mem]
            exact .inl first
        outcome := fun other reached => (old.outcome other reached).mono (by exact fun held => held)
          (by simp [at_, Thread.why]) rfl (by simp [at_, Thread.isFinished])
        sent := old.sent }

/-- What reading a frame changes. -/
structure Read (client after : Client) (frame : Option Json) : Prop where
  heard : after.heard = client.heard ++ [frame]
  handled : after.handled = client.handled ++ (incomingOf frame).toList
  pending : ∀ id, id ∈ after.pending ↔ id ∈ client.pending ∧ answerTo id frame = none
  delivers : ∀ id answer, after.thread = .delivering id answer ↔
    id ∈ client.pending ∧ answerTo id frame = some answer
  runs : after.thread.why = none ∧ after.thread.isFinished = false
  same : after.calls = client.calls ∧ after.next = client.next ∧ after.sent = client.sent ∧
    after.outgoing = client.outgoing

theorem read_spec (client : Client) (frame : Option Json) : Read client (client.read frame) frame := by
  cases said : hear frame with
  | incoming incoming =>
    have to_ : ∀ id, answerTo id frame = none := fun id => by rw [answerTo, said]
    have of : incomingOf frame = some incoming := by rw [incomingOf, said]
    constructor <;> simp [Client.read, said, to_, of, Thread.why, Thread.isFinished]
  | nothing =>
    have to_ : ∀ id, answerTo id frame = none := fun id => by rw [answerTo, said]
    have of : incomingOf frame = none := by rw [incomingOf, said]
    constructor <;> simp [Client.read, said, to_, of, Thread.why, Thread.isFinished]
  | answer other answer =>
    have to_ : ∀ id, answerTo id frame = if other = id then some answer else none :=
      fun id => by rw [answerTo, said]
    have of : incomingOf frame = none := by rw [incomingOf, said]
    by_cases waits : other ∈ client.pending
    · constructor <;> simp [Client.read, said, to_, of, waits, Thread.why, Thread.isFinished]
      all_goals grind
    · constructor <;> simp [Client.read, said, to_, of, waits, Thread.why, Thread.isFinished]
      all_goals grind

theorem Read.first {frame : Option Json} (read : Read client after frame)
    (since : call.since ≤ client.heard.length) :
    after.first id call = (client.first id call).or (answerTo id frame) := by
  rw [Client.first, read.heard, List.drop_append_of_le_length since, List.findSome?_append,
    Client.first]
  simp

theorem inv_hears (inv : client.Inv) (frame : Option Json) (at_ : client.thread = .reading) :
    (client.read frame).Inv := by
  have read := read_spec client frame
  obtain ⟨calls, next, sent, outgoing⟩ := read.same
  obtain ⟨why, runs⟩ := read.runs
  have grows : ∀ id call answer, call.since ≤ client.heard.length →
      client.first id call = some answer → (client.read frame).first id call = some answer := by
    intro id call answer since heard
    rw [read.first since, heard, Option.some_or]
  refine ⟨fun id call held => ?_, fun id le => ?_, fun id none => ?_, ?_⟩
  · have old := inv.calls id call (calls ▸ held)
    exact
      { since := by rw [read.heard, List.length_append]; exact Nat.le_add_right_of_le old.since
        unheard := fun mem => by
          obtain ⟨mem, unanswered⟩ := (read.pending id).mp mem
          obtain ⟨unheard, empty⟩ := old.unheard mem
          exact ⟨by rw [read.first old.since, unheard, unanswered]; rfl, empty⟩
        early := fun early => by
          obtain ⟨absent, empty, -⟩ := old.early early
          exact ⟨fun mem => absent ((read.pending id).mp mem).1, empty,
            fun answer delivering => absent ((read.delivers id answer).mp delivering).1⟩
        delivers := fun answer delivering => by
          obtain ⟨mem, answered⟩ := (read.delivers id answer).mp delivering
          rw [read.first old.since, (old.unheard mem).1, answered]
          rfl
        owed := fun still => by
          rcases old.owed still with mem | ⟨answer, delivering⟩ | answered
          · cases answered : answerTo id frame with
            | none => exact .inl ((read.pending id).mpr ⟨mem, answered⟩)
            | some answer => exact .inr (.inl ⟨answer, (read.delivers id answer).mpr ⟨mem, answered⟩⟩)
          · rw [at_] at delivering
            cases delivering
          · exact .inr (.inr answered)
        late := fun ended => by simp [why] at ended
        answers := fun answer mem => (old.answers answer mem).mono (grows id call answer old.since)
          (by simp [at_, Thread.why])
        outcome := fun answer reached => (old.outcome answer reached).mono
          (grows id call answer old.since) (by simp [at_, Thread.why]) rfl
          (by simp [at_, Thread.isFinished])
        sent := by
          rw [sent, outgoing]
          exact old.sent }
  · rw [calls]
    exact inv.fresh id (next ▸ le)
  · obtain ⟨absent, -, unsent⟩ := inv.known id (calls ▸ none)
    refine ⟨fun mem => absent ((read.pending id).mp mem).1,
      fun answer delivering => absent ((read.delivers id answer).mp delivering).1, ?_⟩
    rw [sent, outgoing, unsent]
  · have told : farewell (client.read frame).thread = [] := by
      cases now : (client.read frame).thread <;> simp_all [farewell, Thread.isFinished]
    rw [read.handled, inv.handled, read.heard, told, at_]
    cases said : incomingOf frame <;> simp [farewell, said]

theorem inv_drains (inv : client.Inv) {why : String} (at_ : client.thread = .ended why) :
    (client.drain why).Inv := by
  have started : client.thread.why = none := by simp [at_, Thread.why]
  have still : ∀ id (call call' : Call) answer, call'.since = call.since →
      client.first id call = some answer → (client.drain why).first id call' = some answer := by
    intro id call call' answer same heard
    rw [Client.first, same]
    exact heard
  refine ⟨fun id call' held => ?_, fun id le => ?_, fun id none => ?_, ?_⟩
  · obtain ⟨call, was, rfl⟩ := Option.map_eq_some_iff.mp held
    have old := inv.calls id call was
    have fields : ∀ call' : Call, call' = (if id ∈ client.pending then
          { call with answers := call.answers ++ [.error why] } else call) →
        call'.stage = call.stage ∧ call'.since = call.since ∧ call'.method = call.method ∧
          call'.params = call.params ∧
          (∀ answer ∈ call'.answers, answer ∈ call.answers ∨ answer = .error why) ∧
          (id ∈ client.pending ∨ call.answers ≠ [] → call'.answers ≠ []) ∧
          (id ∉ client.pending → call'.answers = call.answers) := by
      rintro call' rfl
      split
      · simp_all
      · simp_all
    obtain ⟨stage, since, method, params, answers, filled, kept⟩ := fields _ rfl
    generalize (if id ∈ client.pending then
      { call with answers := call.answers ++ [.error why] } else call) = call' at *
    exact
      { since := since ▸ old.since
        unheard := fun mem => by cases mem
        early := fun early => by
          obtain ⟨absent, empty, -⟩ := old.early (stage ▸ early)
          exact ⟨by simp [drain], (kept absent).trans empty, fun answer delivering => by cases delivering⟩
        delivers := fun answer delivering => by cases delivering
        owed := fun isOpen => by
          refine .inr (.inr (filled ?_))
          rcases old.owed (stage ▸ isOpen) with mem | ⟨answer, delivering⟩ | answered
          · exact .inl mem
          · rw [at_] at delivering
            cases delivering
          · exact .inr answered
        late := fun _ mem => by cases mem
        answers := fun answer mem => by
          rcases answers answer mem with mem | rfl
          · exact (old.answers answer mem).mono (still id call call' answer since) (by simp [started])
          · exact .inr ⟨why, rfl, rfl⟩
        outcome := fun answer reached => (old.outcome answer (stage ▸ reached)).mono
          (still id call call' answer since) (by simp [started]) method (by simp [at_, Thread.isFinished])
        sent := by
          rw [method, params, stage]
          exact old.sent }
  · exact Option.map_eq_none_iff.mpr (inv.fresh id le)
  · obtain ⟨-, -, unsent⟩ := inv.known id (Option.map_eq_none_iff.mp none)
    exact ⟨by simp [drain], by simp [drain], unsent⟩
  · rw [drain, inv.handled, at_]
    rfl

theorem inv_closes (inv : client.Inv) {why : String} (at_ : client.thread = .drained why) :
    (client.close why).Inv := by
  have handled := inv.handled
  rw [at_] at handled
  by_cases stopped : client.stopped = true
  · rw [close, if_pos stopped]
    refine inv.quiet rfl rfl (fun id => ⟨rfl, Iff.rfl, ⟨?_, ?_, ?_⟩, .inr rfl⟩) ?_ <;>
      simp_all [Thread.why, Thread.isFinished, farewell]
  · rw [close, if_neg stopped]
    refine inv.quiet rfl rfl (fun id => ⟨rfl, Iff.rfl, ⟨?_, ?_, ?_⟩, .inr rfl⟩) ?_ <;>
      simp_all [Thread.why, Thread.isFinished, farewell]

/-- A message that is lost leaves at most the messages that there were. -/
theorem Inv.lost_message (inv : client.Inv) {message : Outgoing} {rest : List Outgoing}
    (first : client.outgoing = message :: rest) (id : Nat) :
    (client.sent ++ rest).filterMap (requestOf id) = [] ∨
      (client.sent ++ rest).filterMap (requestOf id) =
        (client.sent ++ client.outgoing).filterMap (requestOf id) := by
  have one : ((client.sent ++ client.outgoing).filterMap (requestOf id)).length ≤ 1 := by
    cases held : client.calls id with
    | none => simp [(inv.known id held).2.2]
    | some call =>
      rcases (inv.calls id call held).sent with none | ⟨one, -⟩
      · simp [none]
      · simp [one]
  cases found : requestOf id message with
  | none => exact .inr (by simp [first, found])
  | some request =>
    simp only [first, List.filterMap_append, List.filterMap_cons, found, List.length_append,
      List.length_cons] at one
    refine .inl (List.length_eq_zero_iff.mp ?_)
    rw [List.filterMap_append, List.length_append]
    omega

/-- Every step of every thread keeps what holds. -/
theorem inv_step (inv : client.Inv) (step : Step client after) : after.Inv := by
  cases step with
  | number method params kept => exact inv_number inv method params
  | register held stage => exact inv_register inv held stage
  | submit held stage runs => exact inv_submit inv held stage
  | @refused id call held stage done =>
    exact inv_leaving inv held (.inl rfl) (.inr (.inr ⟨done, rfl⟩))
  | @receive id call answer answers held stage next =>
    exact inv_leaving inv held (.inr next)
      (.inl ((inv.calls id call held).answers answer (next ▸ List.mem_cons_self)))
  | giveUp seconds held stage none =>
    exact inv_leaving inv held (.inl rfl) (.inr (.inl ⟨seconds, rfl⟩))
  | leave held stage => exact inv_leave inv held stage
  | reply id result =>
    exact inv.quiet rfl rfl (fun other => ⟨rfl, Iff.rfl, .refl _ _, .inr (by simp [requestOf])⟩)
      inv.handled
  | drop idle => exact inv.quiet rfl rfl (fun id => ⟨rfl, Iff.rfl, .refl _ _, .inr rfl⟩) inv.handled
  | checks at_ =>
    refine inv.turns (by simp [at_]) (fun id answer => ?_) ?_ (by simp [at_, Thread.isFinished]) ?_
      (fun id => .inr rfl) <;> split <;> simp [at_, Thread.why, farewell]
  | hears frame at_ => exact inv_hears inv frame at_
  | quiet at_ =>
    exact inv.turns (by simp [at_]) (by simp) (by simp [at_, Thread.why])
      (by simp [at_, Thread.isFinished]) (by simp [at_, farewell]) (fun id => .inr rfl)
  | breaks why at_ =>
    exact inv.turns (by simp [at_]) (by simp) (by simp [at_, Thread.why])
      (by simp [at_, Thread.isFinished]) (by simp [at_, farewell]) (fun id => .inr rfl)
  | delivers at_ held => exact inv_delivers inv held at_
  | sends at_ first =>
    exact inv.turns (by simp [at_]) (by simp [at_]) rfl (fun done => done) rfl
      (fun id => .inr (by simp [first]))
  | sentAll at_ none =>
    exact inv.turns (by simp [at_]) (by simp) (by simp [at_, Thread.why])
      (by simp [at_, Thread.isFinished]) (by simp [at_, farewell]) (fun id => .inr rfl)
  | sendFails error at_ first =>
    exact inv.turns (by simp [at_]) (by simp) (by simp [at_, Thread.why])
      (by simp [at_, Thread.isFinished]) (by simp [at_, farewell]) (inv.lost_message first)
  | drains at_ => exact inv_drains inv at_
  | closes at_ => exact inv_closes inv at_

theorem reachable_inv (reached : Reachable client) : client.Inv := by
  induction reached with
  | refl => exact inv_connected
  | tail _ step ih => exact inv_step ih step

/-- In whatever order the threads go, what a request returns is the first answer with its ID
since it was registered, or says why there is none; its message goes out once at most; a request
that was answered, or that waited when the connection ended, has the answer or is about to get
it; and the handler is given the other frames in order, and the loss last. -/
theorem reachable_sound (client : Client) (reached : Reachable client) :
    (∀ id call answer, client.calls id = some call → call.stage = .returned answer →
      client.Outcome id call answer) ∧
    (∀ id call, client.calls id = some call →
      (client.sent ++ client.outgoing).filterMap (requestOf id) = [] ∨
        (client.sent ++ client.outgoing).filterMap (requestOf id) = [(call.method, call.params)]) ∧
    (∀ id call, client.calls id = some call → call.stage = .waiting →
      (client.first id call).isSome = true ∨
        client.thread.why.isSome = true ∧ call.late = false →
      call.answers ≠ [] ∨ ∃ answer, client.thread = .delivering id answer) ∧
    client.handled = client.heard.filterMap incomingOf ++ farewell client.thread := by
  have inv := reachable_inv reached
  refine ⟨fun id call answer held returned => ?_, fun id call held => ?_,
    fun id call held waiting told => ?_, inv.handled⟩
  · exact (inv.calls id call held).outcome answer (by rw [returned]; rfl)
  · exact (inv.calls id call held).sent.imp_right And.left
  · have old := inv.calls id call held
    rcases old.owed (by rw [waiting]; rfl) with mem | delivering | answered
    · rcases told with heard | ⟨ended, early⟩
      · rw [(old.unheard mem).1] at heard
        cases heard
      · rw [old.late ended mem] at early
        cases early
    · exact .inr delivering
    · exact .inl answered

/-- A request that is sent, answered and returned. -/
theorem reachable_sound_returned : ∃ (client : Client) (call : Call),
    client.calls 1 = some call ∧ call.stage = .returned (.ok (.text "done")) ∧
      client.Outcome 1 call (.ok (.text "done")) := by
  have numbered : Reachable _ := .tail .refl (.number "turn/start" .null rfl)
  have registered := numbered.tail (@Step.register _ 1 _ rfl rfl)
  have submitted := registered.tail (@Step.submit _ 1 _ rfl rfl rfl)
  have quiet := (submitted.tail (.checks rfl)).tail (.quiet rfl)
  have sent := (quiet.tail (.sends rfl rfl)).tail (.sentAll rfl rfl)
  have heard := (sent.tail (.checks rfl)).tail
    (.hears (some (.object [("id", .integer 1), ("result", .text "done")])) rfl)
  have delivered := heard.tail (@Step.delivers _ 1 _ (.ok (.text "done")) rfl rfl)
  have received := delivered.tail (@Step.receive _ 1 _ _ _ rfl rfl rfl)
  have returned := received.tail (@Step.leave _ 1 _ _ rfl rfl)
  exact ⟨_, _, rfl, rfl, (reachable_sound _ returned).1 1 _ _ rfl rfl⟩

end Client

end ProgressiveReviewer.Codex
