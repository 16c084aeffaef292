import Mathlib.Tactic.SplitIfs
import ProgressiveReviewer.Library.Brake
import ProgressiveReviewer.RunAhead.Record

/-! What the session changes in the saved forks of a round, each change under the lock of
their record (`review-explore-session/src/run_ahead/take.rs`, `calls.rs`, `answer.rs`,
`finishing.rs`, `switch.rs`, `settle.rs`, `clean.rs`). -/

namespace ProgressiveReviewer.RunAhead

open Library Explore

/-- The session that an unsettled agent is put on. -/
inductive Target where
  /-- The session the fork was taken from. -/
  | origin
  /-- The fork's session: the round took the fork's turn. -/
  | fork
  deriving DecidableEq, Repr

/-- A fork about to be taken for a choice. -/
structure Planned where
  choice : String
  answer : Option String
  session : String
  deriving DecidableEq, Repr

def Planned.record (planned : Planned) (question : Question) (reviewer : ProcessStamp)
    (point : String) (takenAtMs : Nat) : ForkRecord where
  question := question.id
  version := question.version
  choice := planned.choice
  answer := planned.answer
  session := planned.session
  «from» := some point
  reviewer := reviewer
  takenAtMs := takenAtMs
  turn := none
  submittedAtMs := none
  exit := none
  usage := none
  discarded := none
  cleaned := false
  continued := none

namespace RoundForks

variable (forks : RoundForks)

section Reviewers

variable (running : ProcessStamp → Bool) (reviewer : ProcessStamp)

/-- Why no fork may be taken for a question, as the forks of its round stand. -/
def refusal (question : Question) : Option String :=
  match forks.haltNotice with
  | some notice => some notice
  | none =>
    if forks.forks.any fun fork => question.isVersion fork.question fork.version &&
        fork.runsForAnotherReviewer running reviewer
    then some "another reviewer forks this question" else none

def saveRecords (question : Question) (point : String) (plan : List Planned) (takenAtMs : Nat) :
    Except String RoundForks :=
  match forks.refusal running reviewer question with
  | some refusal => .error refusal
  | none => .ok { forks with
      forks := forks.forks ++ plan.map fun planned =>
        planned.record question reviewer point takenAtMs }

/-- The forks that a stopped reviewer left. -/
def left : List ForkRecord := forks.forks.filter (·.leftByAStoppedReviewer running reviewer)

def discardLeft (atMs : Nat) : RoundForks :=
  { forks with forks := forks.forks.map fun record =>
      if record.leftByAStoppedReviewer running reviewer then record.discard .reviewerStopped atMs
      else record }

end Reviewers

/-- How the start of a fork went: one that did not start counts as cleaned. -/
def forkStarted (session : String) (started : Except String Unit) (atMs : Nat) : RoundForks :=
  match forks.fork session, started with
  | none, _ | some _, .ok _ => forks
  | some _, .error error =>
    let exit := "did not start: " ++ error
    (forks.changeFork session fun record => { record with exit := some exit, cleaned := true }).failed
      (.fork exit) atMs

def forkEnded (session exit : String) (usage : TokenUsage) (atMs : Nat) : RoundForks :=
  match forks.fork session with
  | none => forks
  | some record =>
    let kept := forks.changeFork session fun record =>
      { record with exit := some exit, usage := some usage }
    if record.endingIsAFailure then kept.failed (.fork exit) atMs else kept

def keepTurn (session : String) (turn : InterviewUpdate) (atMs : Nat) : RoundForks :=
  forks.changeFork session fun record =>
    { record with turn := some turn, submittedAtMs := some atMs }

def markDiscarded (sessions : List String) (reason : DiscardReason) (atMs : Nat) : RoundForks :=
  { forks with forks := forks.forks.map fun record =>
      if record.session ∈ sessions then record.discard reason atMs else record }

/-- The forks a closing reviewer saw stop. -/
def closeForks (cleaned : List String) : RoundForks :=
  { forks with forks := forks.forks.map fun record =>
      { record with cleaned := record.cleaned || record.session ∈ cleaned } }

def forkCleaned (session : String) : RoundForks :=
  forks.changeFork session fun record => { record with cleaned := true }

def recordAnswer (answer : AnswerRecord) : RoundForks :=
  { forks with answers := forks.answers ++ [answer] }

/-- The answer's turn runs the plain chain after all. -/
def recordPlain (request : String) (reason : PlainReason) : RoundForks :=
  forks.changeAnswer request fun answer => { answer with path := .plain reason }

/-- Where the switch to a fork stands; once switched, the round used its turn. -/
def recordContinuation (session : String) (continued : Continuation) : RoundForks :=
  match forks.fork session with
  | none => forks
  | some _ =>
    let recorded := forks.changeFork session fun record =>
      { record with continued := some continued }
    match continued with
    | .switched _ => recorded.preparedTurnUsed
    | _ => recorded

def agentRestarted (session : String) (atMs : Nat) : RoundForks :=
  forks.changeFork session fun record =>
    { record with continued := some (.restarted atMs) }.discard .answered atMs

/-- The agent runs the session the round needs. -/
def forkSettled (session : String) (target : Target) (reason : String) (atMs : Nat) : RoundForks :=
  match forks.fork session, target with
  | none, _ => forks
  | some _, .origin => forks.changeFork session fun record =>
      { record with continued := some (.undone atMs reason) }.discard .answered atMs
  | some _, .fork => (forks.changeFork session fun record =>
      { record with continued := some (.switched atMs) }).preparedTurnUsed

def notSettled (session reason error : String) (atMs : Nat) : RoundForks :=
  forks.changeFork session fun record =>
    match record.continued with
    | some (.switching _) =>
      { record with continued := some (.failed atMs (reason ++ "; " ++ error) true) }
    | _ => record

end RoundForks

/-- A change that a reviewer makes to the saved forks of a round. -/
inductive Update where
  | take (question : Question) (point : String) (plan : List Planned) (takenAtMs : Nat)
  | start (session : String) (started : Except String Unit) (atMs : Nat)
  | ended (session exit : String) (usage : TokenUsage) (atMs : Nat)
  | keepTurn (session : String) (turn : InterviewUpdate) (atMs : Nat)
  | discard (sessions : List String) (reason : DiscardReason) (atMs : Nat)
  | discardLeft (atMs : Nat)
  | closed (cleaned : List String)
  | cleaned (session : String)
  | answer (answer : AnswerRecord)
  | plain (request : String) (reason : PlainReason)
  | failed (failure : Failure) (atMs : Nat)
  | continuation (session : String) (continued : Continuation)
  | restarted (session : String) (atMs : Nat)
  | settled (session : String) (target : Target) (reason : String) (atMs : Nat)
  | notSettled (session reason error : String) (atMs : Nat)

/-- What a change leaves; forks that are refused are not recorded. -/
def Update.apply (running : ProcessStamp → Bool) (reviewer : ProcessStamp) (forks : RoundForks) :
    Update → RoundForks
  | take question point plan takenAtMs =>
    match forks.saveRecords running reviewer question point plan takenAtMs with
    | .ok forks => forks
    | .error _ => forks
  | start session started atMs => forks.forkStarted session started atMs
  | ended session exit usage atMs => forks.forkEnded session exit usage atMs
  | keepTurn session turn atMs => forks.keepTurn session turn atMs
  | discard sessions reason atMs => forks.markDiscarded sessions reason atMs
  | discardLeft atMs => forks.discardLeft running reviewer atMs
  | closed stopped => forks.closeForks stopped
  | cleaned session => forks.forkCleaned session
  | answer given => forks.recordAnswer given
  | plain request reason => forks.recordPlain request reason
  | failed failure atMs => forks.failed failure atMs
  | continuation session continued => forks.recordContinuation session continued
  | restarted session atMs => forks.agentRestarted session atMs
  | settled session target reason atMs => forks.forkSettled session target reason atMs
  | notSettled session reason error atMs => forks.notSettled session reason error atMs

/-- What a change tells the brake of run-ahead. -/
def Update.tallies (forks : RoundForks) : Update → List (Tally Failure)
  | start session (.error error) _ =>
    if (forks.fork session).isSome then [.failure (.fork ("did not start: " ++ error))] else []
  | ended session exit _ _ =>
    if (forks.fork session).any (·.endingIsAFailure) then [.failure (.fork exit)] else []
  | failed failure _ => [.failure failure]
  | continuation session (.switched _) | settled session .fork _ _ =>
    if (forks.fork session).isSome then [.success] else []
  | _ => []

/-! What no change takes back. -/

namespace ForkRecord

/-- Neither discarded nor cleaned up. -/
def isHeld (record : ForkRecord) : Bool := record.discarded.isNone && !record.cleaned

/-- What becomes of the record of one fork: it stays discarded, cleaned up, or excused. -/
structure Ages (before after : ForkRecord) : Prop where
  session : after.session = before.session
  question : after.question = before.question
  version : after.version = before.version
  reviewer : after.reviewer = before.reviewer
  held : after.isHeld = true → before.isHeld = true
  fails : after.endingIsAFailure = true → before.endingIsAFailure = true

variable {record : ForkRecord}

theorem Ages.refl (record : ForkRecord) : record.Ages record :=
  ⟨rfl, rfl, rfl, rfl, id, id⟩

theorem Ages.trans {a b c : ForkRecord} (first : a.Ages b) (second : b.Ages c) : a.Ages c where
  session := second.session.trans first.session
  question := second.question.trans first.question
  version := second.version.trans first.version
  reviewer := second.reviewer.trans first.reviewer
  held := first.held ∘ second.held
  fails := first.fails ∘ second.fails

theorem ages_continued (continued : Option Continuation) :
    record.Ages { record with continued := continued } :=
  ⟨rfl, rfl, rfl, rfl, id, id⟩

theorem ages_discard (reason : DiscardReason) (atMs : Nat) : record.Ages (record.discard reason atMs) := by
  unfold discard
  split_ifs
  · exact .refl record
  · refine ⟨rfl, rfl, rfl, rfl, fun held => ?_, fun fails => ?_⟩
    · simp [isHeld] at held
    · simp [endingIsAFailure] at fails

end ForkRecord

namespace RoundForks

variable {forks : RoundForks} {session : String} {change : ForkRecord → ForkRecord}

/-- The records before and after a change that adds none. -/
def Ages (before after : RoundForks) : Prop :=
  List.Forall₂ ForkRecord.Ages before.forks after.forks

theorem Ages.refl (forks : RoundForks) : forks.Ages forks :=
  List.forall₂_same.mpr fun record _ => .refl record

theorem ages_changeFork (ages : ∀ record : ForkRecord, record.Ages (change record)) :
    forks.Ages (forks.changeFork session change) :=
  Keyed.forall₂_change .refl ages

theorem ages_map (ages : ∀ record : ForkRecord, record.Ages (change record)) :
    forks.Ages { forks with forks := forks.forks.map change } :=
  List.forall₂_map_right_iff.mpr (List.forall₂_same.mpr fun record _ => ages record)

theorem Ages.of_forks {before after after' : RoundForks} (ages : before.Ages after)
    (same : after'.forks = after.forks) : before.Ages after' := by
  unfold Ages
  rwa [same]

theorem Ages.sessions {before after : RoundForks} (ages : before.Ages after) :
    after.forks.map ForkRecord.session = before.forks.map ForkRecord.session := by
  unfold Ages at ages
  generalize before.forks = olds at ages
  generalize after.forks = news at ages
  induction ages with
  | nil => rfl
  | cons aged _ ih => rw [List.map_cons, List.map_cons, aged.session, ih]

/-- The record of a fork ages with the records of its round. -/
theorem Ages.fork {before after : RoundForks} (ages : before.Ages after) (session : String) :
    (before.fork session = none ∧ after.fork session = none) ∨
      ∃ a b, before.fork session = some a ∧ after.fork session = some b ∧ a.Ages b :=
  Keyed.find_forall₂ (fun aged => aged.session) ages

theorem Ages.mem {before after : RoundForks} (ages : before.Ages after) {aged : ForkRecord}
    (mem : aged ∈ after.forks) : ∃ record ∈ before.forks, record.Ages aged := by
  unfold Ages at ages
  generalize before.forks = olds at ages
  generalize after.forks = news at ages mem
  induction ages with
  | nil => cases mem
  | cons related _ ih =>
    rcases List.mem_cons.mp mem with rfl | mem
    · exact ⟨_, List.mem_cons_self, related⟩
    · obtain ⟨record, mem, related⟩ := ih mem
      exact ⟨record, List.mem_cons_of_mem _ mem, related⟩

end RoundForks

namespace Update

open ForkRecord RoundForks

variable {running : ProcessStamp → Bool} {reviewer : ProcessStamp} {forks : RoundForks}

/-- Only a change that takes forks adds records, and none once run-ahead stopped. -/
theorem apply_take {question : Question} {point : String} {plan : List Planned} {takenAtMs : Nat} :
    (take question point plan takenAtMs).apply running reviewer forks =
      match forks.refusal running reviewer question with
      | some _ => forks
      | none => { forks with
          forks := forks.forks ++ plan.map fun planned =>
            planned.record question reviewer point takenAtMs } := by
  simp only [apply, saveRecords]
  cases forks.refusal running reviewer question <;> rfl

theorem ages_apply {update : Update}
    (taken : ∀ question point plan takenAtMs, update = take question point plan takenAtMs →
      (forks.refusal running reviewer question).isSome = true) :
    forks.Ages (update.apply running reviewer forks) := by
  cases update with
  | take question point plan takenAtMs =>
    obtain ⟨refusal, refused⟩ := Option.isSome_iff_exists.mp (taken _ _ _ _ rfl)
    rw [apply_take, refused]
    exact .refl forks
  | start session started atMs =>
    simp only [apply, forkStarted]
    split
    · exact .refl forks
    · exact .refl forks
    · refine Ages.of_forks (ages_changeFork fun record => ?_) forks_failed
      exact ⟨rfl, rfl, rfl, rfl, fun held => by simp [isHeld] at held, id⟩
  | ended session exit usage atMs =>
    have kept : forks.Ages (forks.changeFork session fun record =>
        { record with exit := some exit, usage := some usage }) :=
      ages_changeFork fun record => ⟨rfl, rfl, rfl, rfl, id, id⟩
    simp only [apply, forkEnded]
    split
    · exact .refl forks
    · split
      · exact kept.of_forks forks_failed
      · exact kept
  | keepTurn session turn atMs =>
    exact ages_changeFork fun record =>
      ⟨rfl, rfl, rfl, rfl, id, fun fails => by simp [endingIsAFailure] at fails⟩
  | discard sessions reason atMs =>
    refine ages_map fun record => ?_
    split_ifs
    · exact ages_discard reason atMs
    · exact .refl record
  | discardLeft atMs =>
    refine ages_map fun record => ?_
    split_ifs
    · exact ages_discard .reviewerStopped atMs
    · exact .refl record
  | closed stopped =>
    exact ages_map fun record => ⟨rfl, rfl, rfl, rfl, fun held => by simp_all [isHeld], id⟩
  | cleaned session =>
    exact ages_changeFork fun record =>
      ⟨rfl, rfl, rfl, rfl, fun held => by simp [isHeld] at held, id⟩
  | answer given => exact .refl forks
  | plain request reason => exact .refl forks
  | failed failure atMs => exact Ages.of_forks (.refl forks) forks_failed
  | continuation session continued =>
    have kept : forks.Ages (forks.changeFork session fun record =>
        { record with continued := some continued }) :=
      ages_changeFork fun record => ages_continued _
    simp only [apply, recordContinuation]
    split
    · exact .refl forks
    · split
      · exact kept.of_forks rfl
      · exact kept
  | restarted session atMs =>
    exact ages_changeFork fun record =>
      (ages_continued (some (.restarted atMs))).trans (ages_discard .answered atMs)
  | settled session target reason atMs =>
    simp only [apply, forkSettled]
    split
    · exact .refl forks
    · exact ages_changeFork fun record =>
        (ages_continued (some (.undone atMs reason))).trans (ages_discard .answered atMs)
    · have kept : forks.Ages (forks.changeFork session fun record =>
          { record with continued := some (.switched atMs) }) :=
        ages_changeFork fun record => ages_continued _
      exact kept.of_forks rfl
  | notSettled session reason error atMs =>
    refine ages_changeFork fun record => ?_
    split
    · exact ages_continued _
    · exact .refl record

end Update

/-! The brake of run-ahead. -/

namespace RoundForks

variable (forks : RoundForks)

def brake : Brake Failure := ⟨forks.failedInARow, forks.haltedBy⟩

/-- What stopped run-ahead is saved with when it did. -/
def Halts : Prop := forks.haltedAtMs.isSome = forks.haltedBy.isSome

variable {forks} {failure : Failure} {atMs : Nat}

theorem brake_failed (halts : forks.Halts) : (forks.failed failure atMs).brake =
    forks.brake.note failuresToHalt (.failure failure) := by
  unfold failed
  rw [halts]
  split_ifs with goes <;> simp [brake, Brake.note, goes]

theorem halts_failed (halts : forks.Halts) : (forks.failed failure atMs).Halts := by
  unfold failed
  split_ifs
  · exact halts
  · rfl

end RoundForks

namespace Update

open RoundForks

variable {running : ProcessStamp → Bool} {reviewer : ProcessStamp} {forks : RoundForks}

/-- A change moves the brake by what it tells it, and by nothing else. -/
theorem brake_apply (update : Update) (running : ProcessStamp → Bool) (reviewer : ProcessStamp)
    (halts : forks.Halts) :
    (update.apply running reviewer forks).brake =
        (update.tallies forks).foldl (Brake.note failuresToHalt) forks.brake ∧
      (update.apply running reviewer forks).Halts := by
  cases update with
  | take question point plan takenAtMs =>
    rw [apply_take]
    cases forks.refusal running reviewer question <;> exact ⟨rfl, halts⟩
  | start session started atMs =>
    cases started with
    | ok _ =>
      have same : (start session (.ok ()) atMs).apply running reviewer forks = forks := by
        simp only [apply, forkStarted]
        cases forks.fork session <;> rfl
      rw [same]
      exact ⟨rfl, halts⟩
    | error error =>
      simp only [apply, forkStarted, tallies]
      cases forks.fork session with
      | none => exact ⟨rfl, halts⟩
      | some record =>
        have kept : (forks.changeFork session fun record => { record with
            exit := some ("did not start: " ++ error), cleaned := true }).Halts := halts
        exact ⟨brake_failed kept, halts_failed kept⟩
  | ended session exit usage atMs =>
    simp only [apply, forkEnded, tallies]
    cases forks.fork session with
    | none => exact ⟨rfl, halts⟩
    | some record =>
      have kept : (forks.changeFork session fun record => { record with
          exit := some exit, usage := some usage }).Halts := halts
      by_cases fails : record.endingIsAFailure = true
      · simp only [fails, Option.any_some, if_true]
        exact ⟨brake_failed kept, halts_failed kept⟩
      · simp only [fails, Option.any_some]
        exact ⟨rfl, halts⟩
  | failed failure atMs => exact ⟨brake_failed halts, halts_failed halts⟩
  | continuation session continued =>
    cases continued <;> simp only [apply, recordContinuation, tallies] <;>
      cases forks.fork session <;> exact ⟨rfl, halts⟩
  | settled session target reason atMs =>
    cases target <;> simp only [apply, forkSettled, tallies] <;>
      cases forks.fork session <;> exact ⟨rfl, halts⟩
  | keepTurn _ _ _ | discard _ _ _ | discardLeft _ | closed _ | cleaned _ | answer _ | plain _ _
  | restarted _ _ | notSettled _ _ _ _ => exact ⟨rfl, halts⟩

end Update

end ProgressiveReviewer.RunAhead
