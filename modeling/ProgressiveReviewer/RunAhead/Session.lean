import ProgressiveReviewer.Explore.Recovery
import ProgressiveReviewer.RunAhead.Updates

/-! What the Explore session keeps between its inputs, of its round and of run-ahead
(`review-explore-session/src/lib.rs`, `run_ahead.rs`, `run_ahead/talk.rs`, `take.rs`,
`finishing.rs`, `switch.rs`, `settle.rs`). Left out is what only the screens read, the
times of log lines and what a fork's host keeps of it. -/

namespace ProgressiveReviewer.RunAhead

open Library Explore Marks

/-- The round a fork belongs to: its review and its instance. -/
structure RoundKey where
  unit : ReviewUnit
  instanceId : String
  deriving DecidableEq, Repr

abbrev PaneId := String

inductive AgentStatus where
  | idle
  | working
  | blocked
  | done
  | unknown
  deriving DecidableEq, Repr

def AgentStatus.waitsForPrompt (status : AgentStatus) : Bool := status = .idle || status = .done

/-- The agent of a pane, as Herdr reports it. -/
structure PaneAgent where
  pane : PaneId
  status : AgentStatus
  native : Explore.Agent
  deriving DecidableEq, Repr

/-- Which choices of a question run-ahead prepares. -/
inductive Setting where
  | off
  | recommended
  | every
  deriving DecidableEq, Repr

namespace Setting

def isOn (setting : Setting) : Bool := setting ≠ .off

def prepares : Setting → Bool → Bool
  | .off, _ => false
  | .recommended, isRecommended => isRecommended
  | .every, _ => true

end Setting

/-- Where forks of an agent's session start from. -/
structure ForkPoint where
  session : String
  /-- The session's last conversation entry: a later one means the session moved. -/
  entry : Option String
  deriving DecidableEq, Repr

/-- The instructions of a turn, as files. -/
structure TurnFiles where
  access : String
  instanceId : String
  request : String
  /-- What else the files say. -/
  rest : String
  deriving DecidableEq, Repr

/-- A turn saved in the round, and the attempt that delivers it to the agent. -/
structure SavedTurn where
  request : TurnRequest
  attempt : String
  deriving DecidableEq

/-- The identities of the answer that picks a prepared choice, and of its turn. -/
structure ReservedIds where
  request : String
  answer : String
  deriving DecidableEq, Repr

def ReservedIds.apply (reserved : ReservedIds) (request : TurnRequest) : TurnRequest :=
  { request with
    request := reserved.request
    answer := request.answer.map fun answer => { answer with id := reserved.answer } }

/-- A question run-ahead watches, in its round, and the pane of the agent that asked it. -/
structure Asked where
  round : RoundKey
  question : Question
  pane : PaneId
  deriving DecidableEq

/-- One fork taken for the question that waits: it runs, or ran. -/
structure TakenFork where
  session : String
  access : String
  choice : String
  /-- The turn the fork was told, as if the reviewer had picked its choice. -/
  request : TurnRequest
  turn : TurnFiles
  /-- The turn the fork submitted, kept for its choice. -/
  kept : Option InterviewUpdate
  ended : Bool
  deriving DecidableEq

/-- The forks of one question, taken from one point of the agent's session. -/
structure Taken where
  point : ForkPoint
  atMs : Nat
  forks : List TakenFork
  /-- The unreviewed diffs their prompts name. -/
  diffs : String
  deriving DecidableEq

/-- The reviewer's messages of a talk, and the quiet wait that runs once the agent replied. -/
structure Talk where
  messages : List String
  quiet : Option Nat
  deriving DecidableEq, Repr

namespace Talk

def waitingFor (messages : List String) : Option Talk :=
  if messages.isEmpty then none else some ⟨messages, none⟩

end Talk

/-- A question that waits, and the agent watched for its forks. -/
structure Armed where
  generation : Nat
  asked : Asked
  askedAtMs : Nat
  taken : Option Taken
  /-- Whether the agent worked since the forks were taken. -/
  worked : Bool
  refusal : Option String
  /-- A refusal counts as a failure once per question. -/
  refusalCounted : Bool
  talk : Option Talk
  /-- The identities reserved for each choice whose forks were taken. -/
  reserved : SortedMap String ReservedIds
  deriving DecidableEq

namespace Armed

variable (armed : Armed)

/-- The identities reserved for the choice of a request that answers the question. -/
def reservedFor (request : TurnRequest) : Option ReservedIds := do
  guard (armed.asked.round.instanceId = request.instanceId)
  let answer ← request.answer
  let question ← answer.question
  guard (armed.asked.question.isVersion question.id question.version)
  let option ← answer.option
  armed.reserved.lookup option.id

def isFor (round : RoundKey) (question : Question) : Bool :=
  armed.asked.round = round && armed.asked.question.isVersion question.id question.version

end Armed

/-- A bare answer that waits for the fork of its choice to submit its turn. -/
structure Finishing where
  asked : Asked
  askedAtMs : Nat
  turn : SavedTurn
  point : ForkPoint
  takenAtMs : Nat
  fork : TakenFork
  diffs : String
  deriving DecidableEq

/-- A switch of the pane's agent to a fork's session, from before it starts until it ends. -/
structure Switching where
  asked : Asked
  turn : SavedTurn
  fork : TakenFork
  diffs : String
  /-- When the fork started its turn, when the answer waited for it to submit. -/
  finishingSinceMs : Option Nat
  /-- Whether the reviewer stopped waiting meanwhile. -/
  stopped : Bool
  deriving DecidableEq

namespace Switching

variable (switching : Switching)

def finishingSince : Option Nat := switching.finishingSinceMs.filter fun _ => !switching.stopped

def isFor (round : RoundKey) (request : String) : Bool :=
  switching.asked.round = round && switching.turn.request.request = request

end Switching

/-- What has the agent settle: a prompt that waits for it, or run-ahead itself. -/
inductive Trigger where
  | prompt
  | runAhead
  deriving DecidableEq, Repr

/-- The pane's agent being put on the session its round needs. -/
structure Settling where
  round : RoundKey
  /-- The fork whose session the agent may run. -/
  fork : ForkRecord
  target : Target
  /-- Why the switch did not end with the round taking the fork's turn. -/
  reason : String
  trigger : Trigger
  deriving DecidableEq

/-- What the session keeps of run-ahead. -/
structure RunAheadState where
  reviewer : ProcessStamp
  /-- Counts the questions watched. -/
  generation : Nat
  armed : Option Armed
  /-- The access values and the sessions of the forks discarded. -/
  discarded : List String
  finishing : Option Finishing
  switching : Option Switching
  settling : Option Settling
  /-- The forks whose session the agent was not put back from unasked. -/
  settleFailed : List String
  /-- The forks whose session this reviewer saw the agent leave, though their record does
  not say so. -/
  leftUnrecorded : List String
  /-- A turn whose prompt goes out once the switch or the settling ends. -/
  held : Option SavedTurn
  quietWaits : Nat
  deriving DecidableEq

/-- What the session keeps of its round. -/
structure State where
  comparison : Option Comparison
  round : Option ExploreRound
  loadedUnit : Option ReviewUnit
  historical : Bool
  storageError : Option String
  access : String
  /-- The turn this process delivers: the instance of its round, and its request. -/
  pending : Option (String × String)
  /-- The latest round when the reviewer reset another one. -/
  dismissed : Option String
  /-- Whether a start is under way. -/
  starting : Bool
  agent : Option PaneAgent
  /-- The attempt whose prompt is not withdrawn. -/
  prompt : Option String
  implementing : Option String
  deriving DecidableEq

structure Session extends State where
  /-- The files whose diff differed from the round's when the prompt of a request was
  written, an agent's or a fork's. -/
  promptedDiverged : SortedMap String (List String)
  runAhead : RunAheadState
  deriving DecidableEq

def State.new : State where
  comparison := none
  round := none
  loadedUnit := none
  historical := false
  storageError := none
  access := ""
  pending := none
  dismissed := none
  starting := false
  agent := none
  prompt := none
  implementing := none

namespace State

variable (state : State)

/-- This process delivers the turn from now on. -/
def pend (request : TurnRequest) : State :=
  { state with pending := some (request.instanceId, request.request) }

def isPending (instanceId request : String) : Bool := state.pending = some (instanceId, request)

/-- The key of the round it shows. -/
def key : Option RoundKey := state.round.map fun round =>
  ⟨round.exploration.comparison.checkpoint.reviewUnit, round.exploration.instanceId⟩

end State

def RunAheadState.new (reviewer : ProcessStamp) : RunAheadState where
  reviewer := reviewer
  generation := 0
  armed := none
  discarded := []
  finishing := none
  switching := none
  settling := none
  settleFailed := []
  leftUnrecorded := []
  held := none
  quietWaits := 0

def Session.new (reviewer : ProcessStamp) : Session := ⟨.new, .empty, .new reviewer⟩

namespace RunAheadState

variable (s : RunAheadState)

/-- The forks of the question that waits. -/
def taken : Option Taken := s.armed.bind (·.taken)

def takenForks : List TakenFork := (s.taken.map (·.forks)).getD []

/-- The fork that made a call, and its round. A call that names a fork's session is that
fork's, whatever access it gives. -/
def forkOfCall (access : String) (session : Option String) : Option (TakenFork × RoundKey) :=
  let waiting := match s.armed with
    | some armed => s.takenForks.map fun fork => (fork, armed.asked.round)
    | none => []
  let finishing := s.finishing.toList.map fun finishing => (finishing.fork, finishing.asked.round)
  let switching := s.switching.toList.map fun switching => (switching.fork, switching.asked.round)
  (waiting ++ finishing ++ switching).find? fun entry =>
    entry.1.access = access || session = some entry.1.session

/-- Change the forks of the question that waits. -/
def changeTaken (change : Taken → Taken) : RunAheadState :=
  { s with armed := s.armed.map fun armed => { armed with taken := armed.taken.map change } }

/-- Change the fork `session`, among those of the question that waits and the one an answer
waits for. -/
def changeFork (session : String) (change : TakenFork → TakenFork) : RunAheadState :=
  if s.takenForks.any (·.session = session) then
    s.changeTaken fun taken =>
      { taken with forks := Keyed.change TakenFork.session session change taken.forks }
  else
    { s with finishing := s.finishing.map fun finishing =>
        if finishing.fork.session = session then { finishing with fork := change finishing.fork }
        else finishing }

def changeArmed (change : Armed → Armed) : RunAheadState := { s with armed := s.armed.map change }

end RunAheadState

end ProgressiveReviewer.RunAhead
