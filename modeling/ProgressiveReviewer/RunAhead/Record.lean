import ProgressiveReviewer.Explore.Turn
import ProgressiveReviewer.Library.Keyed

/-! What the tool saves of the forks of a round, beside the round
(`review-run-ahead/src/record.rs`, `answer.rs`, `review-turn-path/src/lib.rs`). What a
fork's host keeps of it is left out: only the host reads it. -/

namespace ProgressiveReviewer.RunAhead

open Library Explore

/-- A process ID with the time its process started. -/
structure ProcessStamp where
  pid : Nat
  started : Nat
  deriving DecidableEq, Repr

/-- Why an answer's turn could not be the turn a fork prepared. -/
inductive PlainReason where
  | noHooks
  | comment
  | noneOfTheAbove
  | drawingBoard
  | noForks (why : Option String)
  | notForked
  | stillWorking
  | noTurn
  | stoppedWaiting
  | chatMessage
  | agentBusy
  | sessionMoved
  | unreviewedChanged
  | promptChanged
  | unchecked (error : String)
  | switchFailed (error : String)
  | withdrawn
  | obsolete
  deriving DecidableEq, Repr

/-- The path of the turn after an answer. -/
inductive TurnPath where
  /-- The pane's agent continues as the fork, whose turn is the round's. -/
  | prepared (session : String)
  /-- The answer goes to the pane's agent, which takes the turn. -/
  | plain (reason : PlainReason)
  deriving DecidableEq, Repr

structure AnswerRecord where
  question : String
  version : Nat
  answer : String
  request : String
  atMs : Nat
  path : TurnPath
  deriving DecidableEq, Repr

inductive DiscardReason where
  | answered
  | stoppedWaiting
  | withdrawn
  | answerCancelled
  | questionGone
  | sessionMoved
  | chatMessage
  | turnedOff
  | reset
  | newRound
  | reviewChanged
  | reviewerClosed
  | reviewerStopped
  | tooManyFailures
  deriving DecidableEq, Repr

structure Discard where
  reason : DiscardReason
  /-- Whether the fork had kept a turn. -/
  prepared : Bool
  atMs : Nat
  deriving DecidableEq, Repr

/-- Where the switch of the pane's agent to a fork's session stands. -/
inductive Continuation where
  | switching (atMs : Nat)
  | switched (atMs : Nat)
  /-- With whether the agent was told to resume the fork's session. -/
  | failed (atMs : Nat) (error : String) (typed : Bool)
  /-- The pane's agent is back on the session the fork was taken from. -/
  | undone (atMs : Nat) (reason : String)
  /-- The pane's agent restarted since it was told to resume the fork's session. -/
  | restarted (atMs : Nat)
  deriving DecidableEq, Repr

/-- A failure of run-ahead in a round. -/
inductive Failure where
  /-- A fork ended, or could not start, without a turn. -/
  | fork (exit : String)
  | unchecked (error : String)
  | switchFailed (error : String)
  | noForks (why : String)
  deriving DecidableEq, Repr

namespace Failure

def ofPlain : PlainReason → Option Failure
  | .unchecked error => some (.unchecked error)
  | .switchFailed error => some (.switchFailed error)
  | _ => none

def display : Failure → String
  | .fork exit => "a fork ended without a turn: " ++ exit
  | .unchecked error => "a check of your answer could not be made: " ++ error
  | .switchFailed error => "the agent could not switch to the prepared turn: " ++ error
  | .noForks why => "no fork could be taken: " ++ why

end Failure

structure TokenUsage where
  input : Nat
  cacheCreation : Nat
  cacheRead : Nat
  output : Nat
  deriving DecidableEq, Repr

/-- One fork, from before it starts until it stopped and its session is deleted. -/
structure ForkRecord where
  question : String
  version : Nat
  choice : String
  answer : Option String
  session : String
  /-- The session the fork was taken from. -/
  «from» : Option String
  reviewer : ProcessStamp
  takenAtMs : Nat
  turn : Option InterviewUpdate
  submittedAtMs : Option Nat
  exit : Option String
  usage : Option TokenUsage
  discarded : Option Discard
  cleaned : Bool
  continued : Option Continuation
  deriving DecidableEq

namespace ForkRecord

variable (record : ForkRecord)

def isContinued : Bool := record.continued matches some (.switched _)

/-- Whether the fork's session may be the pane agent's. -/
def isAgentSession : Bool :=
  match record.continued with
  | some (.switching _) | some (.switched _) => true
  | some (.failed _ _ typed) => typed
  | some (.undone ..) | some (.restarted _) | none => false

/-- Whether the pane's agent may run the fork's session while the switch to it did not end. -/
def isUnsettled : Bool := record.continued matches some (.switching _) | some (.failed _ _ true)

/-- Whether the fork, ending now, failed. -/
def endingIsAFailure : Bool := record.turn.isNone && record.discarded.isNone

section Reviewers

variable (running : ProcessStamp → Bool) (reviewer : ProcessStamp)

def leftByAStoppedReviewer : Bool :=
  !record.cleaned && !record.isAgentSession && record.reviewer != reviewer &&
    !running record.reviewer

def runsForAnotherReviewer : Bool :=
  record.discarded.isNone && !record.cleaned && record.reviewer != reviewer &&
    running record.reviewer

def mayBeSettledBy : Bool := record.reviewer == reviewer || !running record.reviewer

end Reviewers

/-- A fork already discarded keeps its first reason, and a fork whose session may be the
pane agent's is never discarded. -/
def discard (reason : DiscardReason) (atMs : Nat) : ForkRecord :=
  if record.discarded.isSome || record.isAgentSession then record
  else { record with discarded := some ⟨reason, record.turn.isSome, atMs⟩, turn := none }

end ForkRecord

/-- How many failures a round may have in a row before run-ahead stops for it. -/
def failuresToHalt : Nat := 3

/-- Every fork run-ahead started in one round, oldest first, and the path each answer to a
question it watched took. -/
structure RoundForks where
  forks : List ForkRecord
  answers : List AnswerRecord
  failedInARow : Nat
  haltedAtMs : Option Nat
  haltedBy : Option Failure
  deriving DecidableEq

namespace RoundForks

def empty : RoundForks := ⟨[], [], 0, none, none⟩

variable (forks : RoundForks)

def fork (session : String) : Option ForkRecord := Keyed.find ForkRecord.session session forks.forks

/-- Change the record of the fork `session`, when there is one. -/
def changeFork (session : String) (change : ForkRecord → ForkRecord) : RoundForks :=
  { forks with forks := Keyed.change ForkRecord.session session change forks.forks }

/-- Change the record of the answer that started the turn `request`, when there is one. -/
def changeAnswer (request : String) (change : AnswerRecord → AnswerRecord) : RoundForks :=
  { forks with answers := Keyed.change AnswerRecord.request request change forks.answers }

/-- Count a failure; run-ahead stops for the round at the last one it may have. -/
def failed (failure : Failure) (atMs : Nat) : RoundForks :=
  if forks.haltedAtMs.isSome ∨ forks.failedInARow + 1 < failuresToHalt then
    { forks with failedInARow := forks.failedInARow + 1 }
  else
    { forks with
      failedInARow := forks.failedInARow + 1
      haltedAtMs := some atMs
      haltedBy := some failure }

/-- The failures before a prepared turn that the round used no longer count. -/
def preparedTurnUsed : RoundForks := { forks with failedInARow := 0 }

/-- Why no fork is taken for the round once run-ahead stopped for it. -/
def haltNotice : Option String :=
  forks.haltedAtMs.map fun _ =>
    let stopped := "Run-ahead stopped for this round after " ++ toString failuresToHalt ++
      " failures in a row"
    match forks.haltedBy with
    | some failure => stopped ++ "; the last: " ++ failure.display
    | none => stopped

/-- The request of the answer that continued as the fork `session`, if one did. -/
def continuedAs (session : String) : Option String :=
  (forks.answers.find? fun answer => answer.path = .prepared session).map (·.request)

end RoundForks

variable {record : ForkRecord} {forks : RoundForks} {session other : String}
variable {change : ForkRecord → ForkRecord} {reason : DiscardReason} {atMs : Nat}

namespace ForkRecord

@[simp] theorem session_discard : (record.discard reason atMs).session = record.session := by
  unfold discard
  split <;> rfl

@[simp] theorem continued_discard : (record.discard reason atMs).continued = record.continued := by
  unfold discard
  split <;> rfl

@[simp] theorem cleaned_discard : (record.discard reason atMs).cleaned = record.cleaned := by
  unfold discard
  split <;> rfl

@[simp] theorem reviewer_discard : (record.discard reason atMs).reviewer = record.reviewer := by
  unfold discard
  split <;> rfl

end ForkRecord

namespace RoundForks

theorem fork_changeFork (keeps : ∀ record, (change record).session = record.session) :
    (forks.changeFork session change).fork other =
      if session = other then (forks.fork session).map change else forks.fork other :=
  Keyed.find_change keeps

theorem forks_failed {failure : Failure} : (forks.failed failure atMs).forks = forks.forks := by
  unfold failed
  split <;> rfl

theorem haltNotice_isSome : forks.haltNotice.isSome = forks.haltedAtMs.isSome := by
  simp [haltNotice]

end RoundForks

end ProgressiveReviewer.RunAhead
