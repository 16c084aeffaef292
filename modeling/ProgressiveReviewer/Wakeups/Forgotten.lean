import ProgressiveReviewer.Library.Runs
import ProgressiveReviewer.Wakeups.Poll

/-! No pending comment is forgotten, over every run of the worker. -/

namespace ProgressiveReviewer.Wakeups

open Library Threads Relation
open Prompts (PromptError)

/-- A step that no failure reported late, and no agent found again after an error, makes tell a
comment twice. -/
def Worker.Heeds (worker : Worker) : Action → Prop
  | .input (.notified notice (.error _)) _ => worker.state.FailsOwn notice
  | .input (.detected pane port) _ => worker.state.ResumesNew pane port
  | .prepare port => ∀ unit units, worker.phase = .preparing (unit :: units) →
      worker.state.PreparesNew unit port
  | _ => True

/-- A comment of a review that waits for this tab's agent is scheduled to be told, has an armed
wakeup, was told, or its reviewer knows of a failure. -/
def State.Covers (state : State) (unit : ReviewUnit) (thread : ReviewThread) (comment : Message) :
    Prop :=
  (state.notifications.lookup unit).isSome = true ∨
  (∃ token access wakeup, state.access.lookup token = some access ∧ access.reviewUnit = unit ∧
    state.wakeups.lookup token = some wakeup ∧ wakeup.needsPoll = true ∧
    comment.sequence ≤ wakeup.requestedThrough) ∨
  (∃ notice, .sent notice ∈ state.history ∧ notice.reviewUnit = unit ∧
    comment.sequence ≤ notice.through ∧ ∀ e removed, .outcome notice (some e) removed ∉ state.history) ∨
  Since (Record.Asks unit thread.id comment) (Record.IsFailure unit) state.history

namespace Worker

variable {worker : Worker} {tab : String} {stored : ReviewUnit → ReviewThreads}

/-- Which Retries may be scheduled where the worker is in its loop. -/
def Turn (state : State) : Phase → Prop
  | .waiting => True
  | .preparing units => ∀ unit, state.notifications.lookup unit = some ⟨true⟩ → unit ∈ units
  | .notifying _ => state.Calm

/-- What holds of a worker wherever it is. -/
structure Sure (worker : Worker) : Prop where
  kept : worker.state.Kept
  once : ∀ unit, (worker.state.channel unit).Once unit
  turn : Turn worker.state worker.phase

theorem once_of_moves {unit : ReviewUnit} {c c' : Channel} (once : c.Once unit)
    (moves : ReflTransGen (Move True unit) c c') : c'.Once unit := by
  induction moves with
  | refl => exact once
  | tail _ move ih => exact ih.move move

theorem Sure.goes {state : State} {phase : Phase} (sure : worker.Sure)
    (goes : State.Goes True worker.state state) (turn : Turn state phase) :
    Sure ⟨state, phase⟩ :=
  ⟨goes.kept, fun unit => once_of_moves (sure.once unit) (goes.moves unit), turn⟩

theorem kept_start (reached : ∀ unit, ReviewThreads.Reachable (fun _ _ => True) (stored unit))
    (named : ∀ unit, (stored unit).reviewUnit = unit) : (start tab true stored).state.Kept := by
  have noBook : ∀ unit book, (start tab true stored).state.books.lookup unit ≠ some book :=
    fun _ _ held => Option.some_ne_none _ held.symm
  have noAccess : ∀ token access, (start tab true stored).state.access.lookup token ≠ some access :=
    fun _ _ held => Option.some_ne_none _ held.symm
  have noWakeup : ∀ token wakeup, (start tab true stored).state.wakeups.lookup token ≠ some wakeup :=
    fun _ _ held => Option.some_ne_none _ held.symm
  have noRecord : ∀ record, record ∉ (start tab true stored).state.history :=
    fun _ => List.not_mem_nil
  exact
    { available := rfl
      sound := fun unit => (reached unit).sound
      named := named
      books := fun unit book held => absurd held (noBook unit book)
      keyed := fun token access held => absurd held (noAccess token access)
      single := fun token _ access _ held => absurd held (noAccess token access)
      shown := fun token access held => absurd held (noAccess token access)
      wakeups := fun token wakeup held => absurd held (noWakeup token wakeup)
      accessed := fun token access held => absurd held (noAccess token access)
      known := fun record mem => absurd mem (noRecord record)
      owner := fun _ _ _ mem => absurd mem (noRecord _)
      sent := fun _ mem => mem.elim (fun mem => absurd mem (noRecord _))
        fun ⟨_, _, mem⟩ => absurd mem (noRecord _)
      sending := fun _ mem => absurd mem List.not_mem_nil }

theorem once_start (unit : ReviewUnit) : ((start tab true stored).state.channel unit).Once unit where
  inv :=
    { sound := fun _ held => absurd held.symm (Option.some_ne_none _)
      bounded := fun _ _ held => absurd held.symm (Option.some_ne_none _)
      idle := fun _ => rfl
      marked := fun _ _ _ _ held => absurd held.symm (Option.some_ne_none _)
      covered := fun _ _ _ held => absurd held.symm (Option.some_ne_none _) }
  shown _ := rfl
  granted _ := rfl
  bounds _ _ _ held := absurd held.symm (Option.some_ne_none _)
  unchanged _ held := absurd held.symm (Option.some_ne_none _)
  removes := trivial
  past _ _ held := absurd held.symm (Option.some_ne_none _)
  tells := trivial

theorem sure_start (reached : ∀ unit, ReviewThreads.Reachable (fun _ _ => True) (stored unit))
    (named : ∀ unit, (stored unit).reviewUnit = unit) : (start tab true stored).Sure :=
  ⟨kept_start reached named, once_start, trivial⟩

theorem goes_input {input : Input} {order : List ReviewUnit} (sure : worker.Sure)
    (may : MayInput worker.state input) (heeds : worker.Heeds (.input input order)) :
    State.Goes True worker.state (worker.state.input input) := by
  have kept := sure.kept
  cases input with
  | command command saved now => exact State.goes_threadCommand kept may
  | activeAgentChanged => exact State.goes_refreshTarget kept
  | released pane =>
    have interrupted : State.Goes True worker.state (worker.state.interruptWakeups pane) :=
      State.goes_interruptWakeups kept
    exact interrupted.trans (State.goes_refreshTarget interrupted.kept)
  | detected pane port =>
    have resumed : State.Goes True worker.state (worker.state.resumeAccess pane port) :=
      State.goes_resumeAccess kept fun _ => heeds
    exact resumed.trans (State.goes_refreshTarget resumed.kept)
  | request token operation port saved now => exact State.goes_request kept
  | notified notice result =>
    have taken : State.Goes True worker.state _ :=
      ⟨State.Kept.sending_erase kept notice, fun _ => .refl⟩
    refine taken.trans (State.goes_notified taken.kept (kept.sending notice may) fun _ failed => ?_)
    cases result with
    | ok _ => exact absurd rfl failed
    | error e => exact heeds
  | other => exact .refl kept

theorem Sure.step (sure : worker.Sure) {action : Action} (may : worker.May action)
    (heeds : worker.Heeds action) : (worker.step action).Sure := by
  cases action with
  | input input order =>
    obtain ⟨-, may, order⟩ := may
    refine sure.goes (goes_input sure may heeds) fun unit retries => ?_
    have mem : unit ∈ (worker.state.input input).notifications.keys :=
      List.mem_map.mpr ⟨_, SortedMap.lookup_eq_some.mp retries, rfl⟩
    exact order.mem_iff.mpr mem
  | prepare port =>
    obtain ⟨unit, units, here, new⟩ := may
    obtain ⟨goes, takes⟩ := State.prepare_spec sure.kept new fun _ => heeds unit units here
    have turn := sure.turn
    rw [here] at turn
    simp only [Worker.step, here]
    refine sure.goes goes fun other retries => ?_
    rw [takes other] at retries
    split_ifs at retries with same
    exact (List.mem_cons.mp (turn other retries)).resolve_left same
  | arm order =>
    have turn := sure.turn
    rw [may.1] at turn
    exact ⟨sure.kept, sure.once, fun unit retries => List.not_mem_nil (turn unit retries)⟩
  | notify port =>
    obtain ⟨token, tokens, here⟩ := may
    have turn := sure.turn
    rw [here] at turn
    obtain ⟨goes, calm⟩ := State.notify_spec sure.kept turn
    simp only [Worker.step, here]
    exact sure.goes goes calm
  | rest => exact ⟨sure.kept, sure.once, trivial⟩

theorem covers_of_covered {state : State} {unit : ReviewUnit} {thread : ReviewThread}
    {comment : Message} (kept : state.Kept)
    (covered : (state.channel unit).Covered unit thread comment) :
    state.Covers unit thread comment := by
  rcases covered with scheduled | ⟨wakeup, armed, polls, within⟩ |
    ⟨notice, mem, named, -, within, unfailed⟩ | failed
  · exact .inl scheduled
  · obtain ⟨token, has, armed⟩ := Option.bind_eq_some_iff.mp armed
    obtain ⟨access, held, named⟩ := kept.token_iff.mp has
    exact .inr (.inl ⟨token, access, wakeup, held, named, armed, polls, within⟩)
  · exact .inr (.inr (.inl ⟨notice, mem, named, within, unfailed⟩))
  · exact .inr (.inr (.inr failed))

/-- In runs that heed what was told, every comment that waits is covered, a failure takes away
only the wakeup it is about and no comment is told twice with an access unless it was asked again. -/
theorem comments_covered (tab : String) (stored : ReviewUnit → ReviewThreads) (worker : Worker)
    (reachable : ∀ unit, ReviewThreads.Reachable (fun _ _ => True) (stored unit))
    (named : ∀ unit, (stored unit).reviewUnit = unit)
    (reached : Reaches Worker.step (fun worker action => worker.May action ∧ worker.Heeds action)
      (start tab true stored) worker) :
    (∀ unit book thread comment, worker.state.books.lookup unit = some book →
      thread ∈ book.threads →
      book.commentFor (worker.state.recipient unit) thread comment = true →
        worker.state.Covers unit thread comment) ∧
    ∀ unit, AtEach (RemovesOwn unit) worker.state.history ∧
      AtEach (TellsOnce unit) worker.state.history := by
  have sure : worker.Sure := reached.invariant (sure_start reachable named)
    fun worker action sure allowed => sure.step allowed.1 allowed.2
  refine ⟨fun unit book thread comment held mem waits => ?_, fun unit =>
    ⟨(sure.once unit).removes, (sure.once unit).tells⟩⟩
  exact covers_of_covered sure.kept ((sure.once unit).inv.covered book thread comment held mem waits)

namespace Sample

def commented : Input :=
  .command (.post "unit" ⟨"thread", { id := "c", author := .reviewer, text := "Why?" },
    some (.round "round")⟩) (.ok ()) 0

def retried : Input := .command (.retry "unit" "thread") (.ok ()) 0

/-- The agent of the tab has each access, and a new one gets a name. -/
def port (name : Token) : Port := ⟨.ok (some ⟨"pane"⟩), fun _ => .ok true, .ok name, fun _ => .ok ⟨"pane"⟩⟩

/-- An input that schedules a notification, and the poll that tells the agent of it. -/
def round (input : Input) (name : Token) : List Action :=
  [.input input ["unit"], .prepare (port name), .arm ["access"], .notify (port name), .rest]

/-- An input that schedules nothing, and its poll. -/
def pause (input : Input) : List Action := [.input input [], .arm [], .rest]

def began : Worker := start "tab" true ReviewThreads.new

/-- The outcome of the first notification. -/
def late : Input := .notified ⟨0, "unit", "access", 1⟩ (.error .notStarted)

/-- The first notification fails once a Retry has told the same comment again, and another agent
is focused. -/
def lateFailure : List Action :=
  round commented "access" ++ round retried "unused" ++ pause late ++ round .activeAgentChanged "unused"

theorem not_granted {history : List Record} {token : Token}
    (plain : ∀ record ∈ history, record.token ≠ some token) :
    ∀ other, .granted other token ∉ history := fun _ mem => plain _ mem rfl

/-- The name of a new access is one that no record has. -/
theorem may_prepare {worker : Worker} {unit : ReviewUnit} {units : List ReviewUnit} {name : Token}
    (here : worker.phase = .preparing (unit :: units))
    (plain : ∀ record ∈ worker.state.history, record.token ≠ some name) :
    worker.May (.prepare (port name)) :=
  ⟨unit, units, here, fun token same other mem => by
    cases same
    exact not_granted plain other mem⟩

instance (state : State) : DecidablePred (MayInput state)
  | .command (.load _) _ _ | .command (.post _ _) _ _ => .isTrue trivial
  | .command (.setResolution _ _ _) _ _ | .command (.markRepliesRead _ _) _ _
  | .command (.markRead _ _ _) _ _ | .command (.retry _ _) _ _ =>
    inferInstanceAs (Decidable (_ = true))
  | .notified _ _ => inferInstanceAs (Decidable (_ ∈ _))
  | .activeAgentChanged | .released _ | .detected _ _ | .request _ _ _ _ _ | .other => .isTrue trivial

theorem reached_lateFailure :
    Reaches Worker.step Worker.May began (lateFailure.foldl Worker.step began) :=
  Reaches.foldl .start ⟨⟨rfl, trivial, by decide⟩, may_prepare rfl (by decide),
    ⟨rfl, by decide⟩, ⟨"access", [], rfl⟩, rfl, ⟨rfl, by decide, by decide⟩,
    may_prepare rfl (by decide), ⟨rfl, by decide⟩, ⟨"access", [], rfl⟩, rfl,
    ⟨rfl, by decide, by decide⟩, ⟨rfl, by decide⟩, rfl,
    ⟨rfl, trivial, by decide⟩, may_prepare rfl (by decide),
    ⟨rfl, by decide⟩, ⟨"access", [], rfl⟩, rfl, trivial⟩

/-- The late failure takes away the wakeup that the Retry asked for, and the agent is told of the
comment again with no Retry between. -/
theorem late_failure_repeats :
    Reaches Worker.step Worker.May began (lateFailure.foldl Worker.step began) ∧
    ¬ AtEach (RemovesOwn "unit") (lateFailure.foldl Worker.step began).state.history ∧
    ¬ AtEach (TellsOnce "unit") (lateFailure.foldl Worker.step began).state.history := by
  have history : (lateFailure.foldl Worker.step began).state.history =
      [.published (.wakeup "unit" none), .sent ⟨2, "unit", "access", 1⟩,
        .requested "unit" "access" 1,
        .published (.wakeup "unit" (some ⟨1, PromptError.notStarted.text⟩)),
        .outcome ⟨0, "unit", "access", 1⟩ (some .notStarted) true,
        .published (.wakeup "unit" none), .sent ⟨1, "unit", "access", 1⟩,
        .requested "unit" "access" 1, .retried "unit" "thread",
        .published (.wakeup "unit" none), .sent ⟨0, "unit", "access", 1⟩,
        .requested "unit" "access" 1, .granted "unit" "access", .posted "unit" "c"] := by
    decide
  rw [history]
  refine ⟨reached_lateFailure, fun removes => ?_, fun tells => ?_⟩
  · exact removes.2.2.2.2.1 ⟨0, "unit", "access", 1⟩ .notStarted rfl rfl (by decide)
  · exact tells.2.1 ⟨2, "unit", "access", 1⟩ rfl rfl (by decide)

/-- The first notification fails before anything else is asked. -/
def failure : List Action := round commented "access" ++ pause late

theorem heeds_failure : Reaches Worker.step
    (fun worker action => worker.May action ∧ worker.Heeds action) began
      (failure.foldl Worker.step began) := by
  refine Reaches.foldl .start ⟨⟨⟨rfl, trivial, by decide⟩, trivial⟩,
    ⟨may_prepare rfl (by decide), fun unit units here scheduled access sequence _ found => ?_⟩,
    ⟨⟨rfl, by decide⟩, trivial⟩, ⟨⟨"access", [], rfl⟩, trivial⟩, ⟨rfl, trivial⟩,
    ⟨⟨rfl, by decide, by decide⟩, fun _ => by decide⟩,
    ⟨⟨rfl, by decide⟩, trivial⟩, ⟨rfl, trivial⟩, trivial⟩
  cases found

theorem comments_covered_failure :
    (∀ thread comment, (failure.foldl Worker.step began).state.books.lookup "unit" =
        some (((failure.foldl Worker.step began).state.stored "unit")) →
      thread ∈ ((failure.foldl Worker.step began).state.stored "unit").threads →
      ((failure.foldl Worker.step began).state.stored "unit").commentFor
        ((failure.foldl Worker.step began).state.recipient "unit") thread comment = true →
          (failure.foldl Worker.step began).state.Covers "unit" thread comment) ∧
    AtEach (RemovesOwn "unit") (failure.foldl Worker.step began).state.history := by
  obtain ⟨covered, each⟩ := comments_covered "tab" ReviewThreads.new (failure.foldl Worker.step began)
    (fun unit => .new unit) (fun _ => rfl) heeds_failure
  exact ⟨fun thread comment => covered "unit" _ thread comment, (each "unit").1⟩

end Sample

end Worker

end ProgressiveReviewer.Wakeups
