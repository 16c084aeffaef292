import Mathlib.Tactic.ByContra
import Mathlib.Tactic.SplitIfs
import ProgressiveReviewer.Library.Runs
import ProgressiveReviewer.RunAhead.Updates

/-! Reviewers that share the forks of a round: each changes the saved forks under the lock
of their record, and any of them may stop between two changes. -/

namespace ProgressiveReviewer.RunAhead

open Library Explore

/-- The saved forks of a round, and the reviewers that share them. -/
structure Sharing where
  forks : RoundForks
  /-- The reviewers that run. -/
  live : List ProcessStamp
  /-- The reviewers that run or ran. -/
  known : List ProcessStamp
  /-- The forks that a reviewer recorded and did not start yet. -/
  starting : List (ProcessStamp × String)
  /-- The forks whose host may still report their end to their reviewer. -/
  due : List (ProcessStamp × String)
  /-- The forks that did not start. -/
  unstarted : List String
  /-- The forks that kept a turn, or were discarded, before they ended. -/
  excused : List String
  /-- The failures counted, each with its fork when it is one's, and the prepared turns
  used. -/
  tallied : List (Option String × Tally Failure)

namespace Sharing

/-- A reviewer starts, stops, or changes the saved forks. -/
inductive Event where
  | begin (reviewer : ProcessStamp)
  | stop (reviewer : ProcessStamp)
  | update (reviewer : ProcessStamp) (update : Update)

def new : Sharing := ⟨.empty, [], [], [], [], [], [], []⟩

/-- The fork whose start or end a change is about. -/
def subject : Update → Option String
  | .start session _ _ | .ended session _ _ _ => some session
  | _ => none

/-- The forks that keep a turn or are discarded by a change. -/
def excuses (forks : RoundForks) : Update → List String
  | .keepTurn session _ _ | .restarted session _ | .settled session .origin _ _ => [session]
  | .discard sessions _ _ =>
    sessions.filter fun session => (forks.fork session).any fun record => !record.isAgentSession
  | _ => []

variable (s : Sharing)

def running (stamp : ProcessStamp) : Bool := stamp ∈ s.live

/-- The forks that a reviewer starts next once it recorded them. -/
def starts (reviewer : ProcessStamp) : Update → List (ProcessStamp × String)
  | .take question _ plan _ =>
    match s.forks.refusal s.running reviewer question with
    | some _ => []
    | none => plan.map fun planned => (reviewer, planned.session)
  | _ => []

def awaits (session : String) : Bool := s.due.any (·.2 = session)

def step : Event → Sharing
  | .begin reviewer => { s with live := reviewer :: s.live, known := reviewer :: s.known }
  | .stop reviewer =>
    { s with
      live := s.live.filter (· ≠ reviewer)
      starting := s.starting.filter (·.1 ≠ reviewer)
      due := s.due.filter (·.1 ≠ reviewer) }
  | .update reviewer update =>
    { s with
      forks := update.apply s.running reviewer s.forks
      starting := s.starting.filter (some ·.2 ≠ subject update) ++ s.starts reviewer update
      -- A host told to start a fork may report its end, even when it says the start failed.
      due := match update with
        | .start session _ _ => (reviewer, session) :: s.due
        | .ended session _ _ _ => s.due.filter (·.2 ≠ session)
        | _ => s.due
      unstarted := match update with
        | .start session (.error _) _ => session :: s.unstarted
        | _ => s.unstarted
      excused := (excuses s.forks update).filter
        (fun session => s.awaits session && session ∉ s.unstarted) ++ s.excused
      tallied := s.tallied ++ (update.tallies s.forks).map fun tally => (subject update, tally) }

/-- What a reviewer may change: it takes forks of new sessions, starts those it took, and
hears once of the end of each. -/
def May (reviewer : ProcessStamp) : Update → Prop
  | .take _ _ plan _ => ∀ planned ∈ plan, s.forks.fork planned.session = none
  | .start session _ _ => (reviewer, session) ∈ s.starting
  | .ended session _ _ _ => (reviewer, session) ∈ s.due
  | _ => True

def Allowed : Event → Prop
  | .begin reviewer => reviewer ∉ s.known
  | .stop reviewer => reviewer ∈ s.live
  | .update reviewer update => reviewer ∈ s.live ∧ s.May reviewer update

/-- No fork that did not start has its end reported. -/
def Reports : Event → Prop
  | .update _ (.ended session _ _ _) => session ∉ s.unstarted
  | _ => True

/-- How often a fork counted as a failure. -/
def fails (session : String) : Nat :=
  s.tallied.countP fun entry => entry.1 = some session && entry.2 matches .failure _

/-- One reviewer that runs has forks of a question's version. -/
def OneReviewer : Prop :=
  ∀ a ∈ s.forks.forks, ∀ b ∈ s.forks.forks, a.question = b.question → a.version = b.version →
    a.isHeld = true → b.isHeld = true → s.running a.reviewer = true → s.running b.reviewer = true →
      a.reviewer = b.reviewer

/-- Run-ahead stopped when three failures came with no prepared turn used between them, for
the one that made them three. -/
def HaltsAtThree : Prop :=
  (s.forks.haltedAtMs.isSome = true ↔
    ∃ (before : List (Tally Failure)) (failures : List Failure) (after : List (Tally Failure)),
      s.tallied.map Prod.snd = before ++ failures.map .failure ++ after ∧ failures.length = 3) ∧
  ∀ failure, s.forks.haltedBy = some failure ↔
    ∃ before after, s.tallied.map Prod.snd = before ++ .failure failure :: after ∧
      Brake.streak before = 2 ∧ (Brake.after 3 before).stopped = none

/-- Once run-ahead stopped, nothing starts it again, and no fork is recorded. -/
def StaysHalted : Prop :=
  s.forks.haltedAtMs.isSome = true → ∀ event, s.Allowed event →
    (s.step event).forks.haltedAtMs.isSome = true ∧
      (s.step event).forks.haltedBy = s.forks.haltedBy ∧
      (s.step event).forks.forks.map ForkRecord.session = s.forks.forks.map ForkRecord.session

/-- A fork counts as one failure at most, and as none when it kept a turn or was discarded
before it ended. -/
def FailsOnce : Prop :=
  ∀ session, s.fails session ≤ 1 ∧ (session ∈ s.excused → s.fails session = 0)

/-! What each change keeps. -/

variable {s} {reviewer : ProcessStamp} {update : Update} {event : Event} {session : String}

/-- The records after a change: the old ones, aged, and new ones that no one kept from
being taken. -/
theorem forks_update (s : Sharing) (reviewer : ProcessStamp) (update : Update) :
    ∃ (aged : RoundForks) (new : List ForkRecord),
      (s.step (.update reviewer update)).forks.forks = aged.forks ++ new ∧ s.forks.Ages aged ∧
      (new ≠ [] → ∃ question point plan takenAtMs, update = .take question point plan takenAtMs ∧
        s.forks.refusal s.running reviewer question = none ∧
        new = plan.map fun planned => planned.record question reviewer point takenAtMs) := by
  by_cases taken : ∀ question point plan takenAtMs, update = .take question point plan takenAtMs →
      (s.forks.refusal s.running reviewer question).isSome = true
  · exact ⟨_, [], (List.append_nil _).symm, Update.ages_apply taken, fun absurd => (absurd rfl).elim⟩
  · simp only [not_forall, Bool.not_eq_true, Option.isSome_eq_false_iff,
      Option.isNone_iff_eq_none] at taken
    obtain ⟨question, point, plan, takenAtMs, rfl, free⟩ := taken
    refine ⟨s.forks, _, ?_, RoundForks.Ages.refl s.forks,
      fun _ => ⟨question, point, plan, takenAtMs, rfl, free, rfl⟩⟩
    simp only [step]
    rw [Update.apply_take, free]

/-- A change keeps the record of a fork, aged. -/
theorem fork_update (reviewer : ProcessStamp) (update : Update) {record : ForkRecord}
    (found : s.forks.fork session = some record) :
    ∃ aged, (s.step (.update reviewer update)).forks.fork session = some aged ∧
      record.Ages aged := by
  obtain ⟨aged, new, forks, ages, -⟩ := forks_update s reviewer update
  rcases ages.fork session with ⟨none, -⟩ | ⟨a, b, first, second, aged⟩
  · exact absurd (found.symm.trans none) (by simp)
  · obtain rfl := Option.some.inj (found.symm.trans first)
    refine ⟨b, ?_, aged⟩
    rw [RoundForks.fork, forks, Keyed.find_append, ← RoundForks.fork, second, Option.some_or]

theorem refusal_eq_none {question : Question}
    (free : s.forks.refusal s.running reviewer question = none) :
    s.forks.haltedAtMs = none ∧ ∀ record ∈ s.forks.forks, record.question = question.id →
      record.version = question.version → record.isHeld = true →
        s.running record.reviewer = true → record.reviewer = reviewer := by
  unfold RoundForks.refusal at free
  cases halted : s.forks.haltNotice with
  | some notice => rw [halted] at free; cases free
  | none =>
    rw [halted] at free
    refine ⟨?_, fun record mem id version held runs => ?_⟩
    · have := s.forks.haltNotice_isSome
      rw [halted] at this
      exact Option.not_isSome_iff_eq_none.mp (by simp [← this])
    · split_ifs at free with any
      by_contra another
      refine any (List.any_eq_true.mpr ⟨record, mem, ?_⟩)
      simp only [ForkRecord.isHeld, Bool.and_eq_true, Bool.not_eq_true'] at held
      simp [Question.isVersion, ForkRecord.runsForAnotherReviewer, id, version, held, runs, another]

/-- The reviewers of the records ran, and so did those that run. -/
structure Known (s : Sharing) : Prop where
  records : ∀ record ∈ s.forks.forks, record.reviewer ∈ s.known
  live : ∀ reviewer ∈ s.live, reviewer ∈ s.known

theorem Known.step (known : s.Known) (allowed : s.Allowed event) : (s.step event).Known := by
  cases event with
  | begin reviewer =>
    refine ⟨fun record mem => List.mem_cons_of_mem _ (known.records record mem), fun other live => ?_⟩
    rcases List.mem_cons.mp live with rfl | live
    · exact List.mem_cons_self
    · exact List.mem_cons_of_mem _ (known.live other live)
  | stop reviewer =>
    exact ⟨known.records, fun other live => known.live other (List.mem_filter.mp live).1⟩
  | update reviewer update =>
    refine ⟨fun record mem => ?_, known.live⟩
    obtain ⟨aged, new, forks, ages, taken⟩ := forks_update s reviewer update
    rw [forks] at mem
    rcases List.mem_append.mp mem with old | fresh
    · obtain ⟨before, mem, aged⟩ := ages.mem old
      exact aged.reviewer ▸ known.records before mem
    · obtain ⟨question, point, plan, takenAtMs, rfl, -, rfl⟩ := taken (List.ne_nil_of_mem fresh)
      obtain ⟨planned, -, rfl⟩ := List.mem_map.mp fresh
      exact known.live reviewer allowed.1

theorem OneReviewer.step (one : s.OneReviewer) (known : s.Known) (allowed : s.Allowed event) :
    (s.step event).OneReviewer := by
  cases event with
  | begin reviewer =>
    have ran {record : ForkRecord} (mem : record ∈ s.forks.forks)
        (runs : (s.step (.begin reviewer)).running record.reviewer = true) :
        s.running record.reviewer = true := by
      have differs : record.reviewer ≠ reviewer := fun same =>
        allowed (same ▸ known.records record mem)
      simpa [running, Sharing.step, differs] using runs
    exact fun a memA b memB question version heldA heldB runsA runsB =>
      one a memA b memB question version heldA heldB (ran memA runsA) (ran memB runsB)
  | stop reviewer =>
    have ran {stamp : ProcessStamp} (runs : (s.step (.stop reviewer)).running stamp = true) :
        s.running stamp = true := by
      simp only [running, Sharing.step, decide_eq_true_eq, List.mem_filter] at runs ⊢
      exact runs.1
    exact fun a memA b memB question version heldA heldB runsA runsB =>
      one a memA b memB question version heldA heldB (ran runsA) (ran runsB)
  | update reviewer update =>
    obtain ⟨aged, new, forks, ages, taken⟩ := forks_update s reviewer update
    -- A record, aged or new, is of the reviewer that changes the forks, or was there.
    have from_ {record : ForkRecord} (mem : record ∈ (s.step (.update reviewer update)).forks.forks) :
        (∃ before ∈ s.forks.forks, before.Ages record) ∨
          record ∈ new ∧ record.reviewer = reviewer := by
      rw [forks] at mem
      refine (List.mem_append.mp mem).imp (fun old => ?_) (fun fresh => ⟨fresh, ?_⟩)
      · exact ages.mem old
      · obtain ⟨question, point, plan, takenAtMs, rfl, -, rfl⟩ := taken (List.ne_nil_of_mem fresh)
        obtain ⟨planned, -, rfl⟩ := List.mem_map.mp fresh
        rfl
    -- New ones are taken only when no other reviewer that runs holds an old one.
    have mixed {old fresh before : ForkRecord} (mem : before ∈ s.forks.forks)
        (aged : before.Ages old) (new : fresh ∈ new) (question : old.question = fresh.question)
        (version : old.version = fresh.version) (held : old.isHeld = true)
        (runs : s.running old.reviewer = true) : old.reviewer = reviewer := by
      obtain ⟨asked, point, plan, takenAtMs, rfl, free, rfl⟩ := taken (List.ne_nil_of_mem new)
      obtain ⟨planned, -, rfl⟩ := List.mem_map.mp new
      refine aged.reviewer.trans ((refusal_eq_none free).2 before mem ?_ ?_ (aged.held held) ?_)
      · exact aged.question.symm.trans question
      · exact aged.version.symm.trans version
      · exact aged.reviewer ▸ runs
    intro a memA b memB question version heldA heldB runsA runsB
    rcases from_ memA with ⟨a', memA', agedA⟩ | ⟨newA, mineA⟩ <;>
      rcases from_ memB with ⟨b', memB', agedB⟩ | ⟨newB, mineB⟩
    · have same := one a' memA' b' memB' (agedA.question ▸ agedB.question ▸ question)
        (agedA.version ▸ agedB.version ▸ version) (agedA.held heldA) (agedB.held heldB)
        (agedA.reviewer ▸ runsA) (agedB.reviewer ▸ runsB)
      rw [agedA.reviewer, agedB.reviewer, same]
    · rw [mixed memA' agedA newB question version heldA runsA, mineB]
    · rw [mineA, mixed memB' agedB newA question.symm version.symm heldB runsB]
    · rw [mineA, mineB]

end Sharing

end ProgressiveReviewer.RunAhead
