import Mathlib.Logic.Function.Basic
import Mathlib.Logic.Relation

/-! The reviewed share of each revision of the history that the revision selector shows
(`reviewer/src/runtime/revision_progress.rs`), and the worker that computes the shares between
its other commands (`reviewer/src/runtime/worker.rs`). A share is a value that the commit and the
review marks of a revision determine; other processes save marks and rewrite revisions at any
time. -/

namespace ProgressiveReviewer.Selector

/-- A row of the history. -/
structure HistoryLine where
  changeId : Option String
  commitId : Option String
  isCurrent : Bool
  isImmutable : Bool
  deriving DecidableEq, Repr

def absDiff (m n : Nat) : Nat := (m - n) + (n - m)

/-- The revisions that the selector can open, nearest to the current one first. -/
def openRows (lines : List HistoryLine) : List (HistoryLine × Nat) :=
  let current := (lines.findIdx? (·.isCurrent)).getD 0
  (lines.zipIdx.filter fun row => !row.1.isImmutable && row.1.changeId.isSome).mergeSort
    fun row other => decide (absDiff row.2 current ≤ absDiff other.2 current)

/-- A revision and its commit, as a row gives them. -/
def rows (lines : List HistoryLine) : List (String × Option String) :=
  (openRows lines).filterMap fun row => row.1.changeId.map fun changeId => (changeId, row.1.commitId)

/-- A share as it was computed: valid while the revision's commit and its marks' stamp are the
same. -/
structure Known (π : Type) where
  commit : String
  stamp : Option String
  progress : π

structure HistoryProgress (π : Type) where
  loadId : Option Nat
  /-- The revisions of the latest history whose share is still to compute. -/
  revisions : List String
  /-- Whether the worker's command for the next one is queued. -/
  queued : Bool
  known : String → Option (Known π)

namespace HistoryProgress

variable {π : Type} (history : HistoryProgress π)

def empty : HistoryProgress π := ⟨none, [], false, fun _ => none⟩

/-- Start on a new history, without the shares of revisions that it no longer shows. -/
def start (loadId : Nat) (rows : List (String × Option String)) : HistoryProgress π :=
  { history with
    loadId := some loadId
    revisions := []
    known := fun changeId =>
      if rows.any fun row => row.1 = changeId then history.known changeId else none }

/-- The share of a revision, if it was computed at `commit` with the marks as `stamp` tells them;
a stamp that cannot be read tells nothing. -/
def stillKnown (changeId : String) (commit : Option String) (stamp : Option (Option String)) :
    Option π := do
  let known ← history.known changeId
  let stamp ← stamp
  if some known.commit = commit ∧ known.stamp = stamp then some known.progress else none

/-- The next revision to compute. -/
def next : Option (Nat × String) × HistoryProgress π :=
  match history.loadId, history.revisions with
  | some loadId, changeId :: revisions =>
    (some (loadId, changeId), { history with queued := false, revisions })
  | _, _ => (none, { history with queued := false })

/-- Whether to queue the worker's command for the next revision. -/
def queue : Bool × HistoryProgress π :=
  let queue := !history.queued && !history.revisions.isEmpty
  (queue, { history with queued := history.queued || queue })

/-- Keep a share that was computed, with the stamp that the marks had before. -/
def keep (changeId : String) (known : Known π) : HistoryProgress π :=
  { history with known := Function.update history.known changeId (some known) }

end HistoryProgress

/-- What the repository tells of a commit: the paths that it changes, and the share when these have
the given marks. -/
structure Repository (π μ : Type) where
  files : String → List String
  progress : String → List μ → π

/-- The share of a commit under the marks of its revision. -/
def Repository.share {π μ : Type} (repository : Repository π μ) (commit : String)
    (marks : String → μ) : π :=
  repository.progress commit ((repository.files commit).map marks)

/-- The revisions and their review marks, as the processes share them. -/
structure World (μ : Type) where
  commit : String → String
  /-- The mark of each path of a revision. -/
  marks : String → String → μ
  /-- How often the marks of a revision changed. -/
  saved : String → Nat
  /-- How many of those that change them have not stamped them yet. -/
  saving : String → Nat
  stamp : String → Option String
  /-- The stamps that the marks of a revision had. -/
  used : String → List (Option String)

namespace World

variable {μ : Type} (world : World μ)

def rewrite (changeId commit : String) : World μ :=
  { world with commit := Function.update world.commit changeId commit }

/-- Write the marks of a revision, as one of `saving` saves. -/
def save (changeId : String) (marks : String → μ) (saving : Nat) : World μ :=
  { world with
    marks := Function.update world.marks changeId marks
    saved := Function.update world.saved changeId (world.saved changeId + 1)
    saving := Function.update world.saving changeId saving }

/-- Stamp the marks of a revision, which ends a save. -/
def stampMarks (changeId stamp : String) (saving : Nat) : World μ :=
  { world with
    saving := Function.update world.saving changeId saving
    stamp := Function.update world.stamp changeId (some stamp)
    used := Function.update world.used changeId (some stamp :: world.used changeId) }

end World

inductive Command where
  | loadHistory (loadId : Nat)
  | revisionProgress
  | other
  deriving DecidableEq, Repr

/-- A share that the worker sent, with the commit it is of and the marks at that time. -/
structure Sent (π μ : Type) where
  loadId : Nat
  changeId : String
  result : Except String π
  commit : Option String
  marks : String → μ
  /-- Whether a save of the marks was under way, or came while they were read. -/
  unsettled : Bool

/-- The computing of a share. -/
structure Task where
  loadId : Nat
  changeId : String
  /-- The stamp that the marks had before, when that could be read. -/
  stamp : Option (Option String)
  /-- How often the marks had changed before. -/
  begun : Nat

/-- What the worker is in the middle of. -/
inductive Phase (π μ : Type) where
  | idle
  /-- Looks the rows of a new history up; the shares still known so far. -/
  | starting (loadId : Nat) (rows : List (String × Option String)) (known : List (Sent π μ))
  | stamped (task : Task)
  /-- Reads the mark of one path after the other. -/
  | reading (task : Task) (commit : String) (read : List μ) (left : List String)

structure Worker (π μ : Type) where
  world : World μ
  commands : List Command
  history : HistoryProgress π
  phase : Phase π μ
  /-- The revisions of the latest history, nearest first. -/
  asked : List String
  /-- The shares that were sent for the latest history. -/
  sent : List (Sent π μ)

namespace Worker

variable {π μ : Type} (worker : Worker π μ)

/-- Queue the command for the next revision, unless one is queued or none is left. -/
def queueNext : Worker π μ :=
  { worker with
    commands := worker.commands ++ if worker.history.queue.1 then [.revisionProgress] else []
    history := worker.history.queue.2 }

/-- Send a share, and go on with the next revision. -/
def send (sent : Sent π μ) : Worker π μ :=
  queueNext { worker with phase := .idle, sent := worker.sent ++ [sent] }

/-- The stamp of a revision's marks, unless it cannot be read. -/
def marksStamp (changeId : String) (readable : Bool) : Option (Option String) :=
  if readable then some (worker.world.stamp changeId) else none

/-- One row looked up: its share is still known, or it is to compute. -/
def lookUp (loadId : Nat) (row : String × Option String) (rest : List (String × Option String))
    (known : List (Sent π μ)) (readable : Bool) : Worker π μ :=
  match worker.history.stillKnown row.1 row.2 (worker.marksStamp row.1 readable) with
  | some progress =>
    { worker with phase := .starting loadId rest (known ++ [⟨loadId, row.1, .ok progress, row.2,
        worker.world.marks row.1, decide (0 < worker.world.saving row.1)⟩]) }
  | none =>
    { worker with
      phase := .starting loadId rest known
      history := { worker.history with revisions := worker.history.revisions ++ [row.1] } }

/-- What the worker sends of a share, at `commit` if the revision could be read. -/
def tells (task : Task) (commit : Option String) (result : Except String π) : Sent π μ :=
  ⟨task.loadId, task.changeId, result, commit, worker.world.marks task.changeId,
    decide (task.begun ≠ worker.world.saved task.changeId)⟩

/-- Keep a share that was computed, unless the stamp could not be read. -/
def keep (task : Task) (commit : String) (progress : π) : Worker π μ :=
  { worker with history := match task.stamp with
      | some stamp => worker.history.keep task.changeId ⟨commit, stamp, progress⟩
      | none => worker.history }

end Worker

/-- One step of the worker, or of another process that saves marks or rewrites a revision. -/
inductive Step {π μ : Type} (repository : Repository π μ) : Worker π μ → Worker π μ → Prop where
  /-- Another thread sends a command. The worker alone sends the one for the next revision. -/
  | sends {worker : Worker π μ} (command : Command) (other : command ≠ .revisionProgress) :
      Step repository worker { worker with commands := worker.commands ++ [command] }
  | rewrites {worker : Worker π μ} (changeId commit : String) :
      Step repository worker { worker with world := worker.world.rewrite changeId commit }
  /-- A save writes marks of a revision. -/
  | saves {worker : Worker π μ} (changeId : String) (marks : String → μ) :
      Step repository worker { worker with
        world := worker.world.save changeId marks (worker.world.saving changeId + 1) }
  /-- A save that has several records to write, or to remove, goes on. -/
  | savesOn {worker : Worker π μ} {changeId : String} (marks : String → μ)
      (under : 0 < worker.world.saving changeId) :
      Step repository worker { worker with
        world := worker.world.save changeId marks (worker.world.saving changeId) }
  /-- A new random stamp tells that the marks changed. -/
  | stamps {worker : Worker π μ} {changeId : String} {saving : Nat} (stamp : String)
      (under : worker.world.saving changeId = saving + 1)
      (fresh : some stamp ∉ worker.world.used changeId) :
      Step repository worker { worker with world := worker.world.stampMarks changeId stamp saving }
  | skips {worker : Worker π μ} {commands : List Command} (idle : worker.phase = .idle)
      (first : worker.commands = .other :: commands) :
      Step repository worker { worker with commands }
  /-- The history cannot be read: the shares of the one before go on. -/
  | failsToLoad {worker : Worker π μ} {commands : List Command} {loadId : Nat}
      (idle : worker.phase = .idle) (first : worker.commands = .loadHistory loadId :: commands) :
      Step repository worker { worker with commands }
  | starts {worker : Worker π μ} {commands : List Command} {loadId : Nat}
      (lines : List HistoryLine) (idle : worker.phase = .idle)
      (first : worker.commands = .loadHistory loadId :: commands) :
      Step repository worker { worker with
        commands
        history := worker.history.start loadId (rows lines)
        phase := .starting loadId (rows lines) []
        asked := (rows lines).map Prod.fst
        sent := [] }
  | looksUp {worker : Worker π μ} {loadId : Nat} {row : String × Option String}
      {rest : List (String × Option String)} {known : List (Sent π μ)} (readable : Bool)
      (at_ : worker.phase = .starting loadId (row :: rest) known) :
      Step repository worker (worker.lookUp loadId row rest known readable)
  | started {worker : Worker π μ} {loadId : Nat} {known : List (Sent π μ)}
      (at_ : worker.phase = .starting loadId [] known) :
      Step repository worker (Worker.queueNext { worker with phase := .idle, sent := known })
  /-- The worker's command finds no revision left. -/
  | finds {worker : Worker π μ} {commands : List Command} (idle : worker.phase = .idle)
      (first : worker.commands = .revisionProgress :: commands)
      (none : worker.history.next.1 = none) :
      Step repository worker { worker with commands, history := worker.history.next.2 }
  | takes {worker : Worker π μ} {commands : List Command} {loadId : Nat} {changeId : String}
      (readable : Bool) (idle : worker.phase = .idle)
      (first : worker.commands = .revisionProgress :: commands)
      (next : worker.history.next.1 = some (loadId, changeId)) :
      Step repository worker { worker with
        commands
        history := worker.history.next.2
        phase := .stamped ⟨loadId, changeId, worker.marksStamp changeId readable,
          worker.world.saved changeId⟩ }
  | loads {worker : Worker π μ} {task : Task} (at_ : worker.phase = .stamped task) :
      Step repository worker { worker with
        phase := .reading task (worker.world.commit task.changeId) []
          (repository.files (worker.world.commit task.changeId)) }
  | reads {worker : Worker π μ} {task : Task} {commit path : String} {read : List μ}
      {left : List String} (at_ : worker.phase = .reading task commit read (path :: left)) :
      Step repository worker { worker with
        phase := .reading task commit (read ++ [worker.world.marks task.changeId path]) left }
  | failsToRead {worker : Worker π μ} {task : Task} (reason : String)
      (at_ : worker.phase = .stamped task) :
      Step repository worker (worker.send (worker.tells task none (.error reason)))
  | failsToCompare {worker : Worker π μ} {task : Task} {commit : String} {read : List μ}
      {left : List String} (reason : String) (at_ : worker.phase = .reading task commit read left) :
      Step repository worker (worker.send (worker.tells task (some commit) (.error reason)))
  | computes {worker : Worker π μ} {task : Task} {commit : String} {read : List μ}
      (at_ : worker.phase = .reading task commit read []) :
      Step repository worker ((worker.keep task commit (repository.progress commit read)).send
        (worker.tells task (some commit) (.ok (repository.progress commit read))))

/-- A worker that begins: the marks' stamps are those that they have. -/
def Worker.begins {π μ : Type} (worker : Worker π μ) : Prop :=
  worker.commands.count .revisionProgress = 0 ∧ worker.history = .empty ∧ worker.phase = .idle ∧
    worker.asked = [] ∧ worker.sent = [] ∧
    ∀ changeId, worker.world.stamp changeId ∈ worker.world.used changeId

/-- The states that a worker reaches, whatever comes between its steps. -/
def Reachable {π μ : Type} (repository : Repository π μ) (worker : Worker π μ) : Prop :=
  ∃ first : Worker π μ, first.begins ∧ Relation.ReflTransGen (Step repository) first worker

theorem Reachable.tail {π μ : Type} {repository : Repository π μ} {worker after : Worker π μ}
    (reached : Reachable repository worker) (step : Step repository worker after) :
    Reachable repository after := by
  obtain ⟨first, begins, run⟩ := reached
  exact ⟨first, begins, run.tail step⟩

end ProgressiveReviewer.Selector
