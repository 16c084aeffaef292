import ProgressiveReviewer.Library.Arranging
import Mathlib.Logic.Function.Basic
import Mathlib.Logic.Relation

/-! The worker that runs the reviewer's commands one after the other
(`reviewer/src/runtime/worker.rs`). Of editor views that are to be saved right after each other it
saves the last one only (`review-explore-session/src/restore.rs`, `records.rs`). -/

namespace ProgressiveReviewer.Runtime

open Library

/-- The reviewer's editor state of a round, as the pane sends it to be saved. -/
structure ViewSave (ν : Type) where
  reviewUnit : String
  «instance» : String
  sequence : Nat
  state : ν
  deriving DecidableEq

/-- What is saved of the rounds of each review, and the editor view of each round. -/
structure Records (ν : Type) where
  rounds : String → List String
  views : String × String → Option (ViewSave ν)

namespace Records

variable {ν : Type} [DecidableEq ν] (refuses : ViewSave ν → Option String) (records : Records ν)

def write (view : ViewSave ν) : Except String (Records ν) :=
  match refuses view with
  | some reason => .error reason
  | none => .ok { records with
      views := Function.update records.views (view.reviewUnit, view.instance) (some view) }

/-- Save the reviewer's editor state. Older autosaves never replace newer ones, and one sequence
number never changes content. -/
def saveView (unit : String) (view : ViewSave ν) : Except String (Records ν) :=
  if view.reviewUnit ≠ unit then .error "Explore storage: editor belongs to another review"
  else if view.instance ∉ records.rounds unit then .error "Explore storage: saved round is missing"
  else match records.views (unit, view.instance) with
    | some previous =>
      if previous.sequence = view.sequence ∧ previous ≠ view then
        .error "Explore storage: editor sequence already has different content; original retained"
      else if view.sequence ≤ previous.sequence then .ok records
      else records.write refuses view
    | none => records.write refuses view

end Records

/-- What saving a view reads and changes of the Explore session. -/
structure Session (ν : Type) where
  records : Records ν
  loadedUnit : Option String
  lastView : Option (ViewSave ν)
  storageError : Option String
  /-- The failures that the panes were told. -/
  failed : List String

namespace Session

variable {ν : Type} [DecidableEq ν] (refuses : ViewSave ν → Option String) (session : Session ν)

def saveView (view : ViewSave ν) : Session ν :=
  if session.storageError.isSome then session
  else
    let result := session.records.saveView refuses view.reviewUnit view
    let session := if session.loadedUnit = some view.reviewUnit then
      { session with lastView := some view } else session
    match result with
    | .ok records => { session with records }
    | .error error =>
      { session with storageError := some error, failed := session.failed ++ [error] }

end Session

inductive Command (ν : Type) where
  | saveView (view : ViewSave ν)
  /-- Another command, by what it does to what is saved. -/
  | other (effect : Session ν → Session ν)
  | quit

namespace Command

variable {ν : Type} [DecidableEq ν] (refuses : ViewSave ν → Option String)

def handle (session : Session ν) : Command ν → Session ν
  | saveView view => session.saveView refuses view
  | other effect => effect session
  | quit => session

def isQuit : Command ν → Bool
  | quit => true
  | _ => false

end Command

/-- What the worker is in the middle of. -/
inductive Phase (ν : Type) where
  | receiving
  /-- Has a view to save, and looks for a newer one, as often as is left. -/
  | coalescing (view : ViewSave ν) (left : Nat)
  | handling (command : Command ν)
  | ended

structure Worker (ν : Type) where
  channel : List (Command ν)
  /-- A command that was taken from the channel and comes after the one being handled. -/
  next : Option (Command ν)
  phase : Phase ν
  session : Session ν
  /-- Every command that was sent, and those that were handled. -/
  sent : List (Command ν)
  handled : List (Command ν)

namespace Worker

variable {ν : Type} (worker : Worker ν)

def start (session : Session ν) : Worker ν := ⟨[], none, .receiving, session, [], []⟩

/-- What the worker does with a command first. -/
def begin : Command ν → Phase ν
  | .saveView view => .coalescing view 64
  | command => .handling command

end Worker

inductive Step {ν : Type} [DecidableEq ν] (refuses : ViewSave ν → Option String) :
    Worker ν → Worker ν → Prop where
  /-- Another thread sends a command. -/
  | sends {worker : Worker ν} (command : Command ν) :
      Step refuses worker { worker with
        channel := worker.channel ++ [command]
        sent := worker.sent ++ [command] }
  | takes {worker : Worker ν} {command : Command ν} (receiving : worker.phase = .receiving)
      (next : worker.next = some command) :
      Step refuses worker { worker with next := none, phase := Worker.begin command }
  | receives {worker : Worker ν} {command : Command ν} {channel : List (Command ν)}
      (receiving : worker.phase = .receiving) (none : worker.next = none)
      (first : worker.channel = command :: channel) :
      Step refuses worker { worker with channel, phase := Worker.begin command }
  /-- The next command saves a newer view of the same round. -/
  | coalesces {worker : Worker ν} {view new : ViewSave ν} {left : Nat}
      {channel : List (Command ν)} (at_ : worker.phase = .coalescing view (left + 1))
      (first : worker.channel = .saveView new :: channel)
      (same : new.instance = view.instance) :
      Step refuses worker { worker with channel, phase := .coalescing new left }
  | finds {worker : Worker ν} {view : ViewSave ν} {left : Nat} {command : Command ν}
      {channel : List (Command ν)} (at_ : worker.phase = .coalescing view (left + 1))
      (first : worker.channel = command :: channel)
      (other : ∀ new, command = .saveView new → new.instance ≠ view.instance) :
      Step refuses worker { worker with
        channel, next := some command, phase := .handling (.saveView view) }
  | empties {worker : Worker ν} {view : ViewSave ν} {left : Nat}
      (at_ : worker.phase = .coalescing view (left + 1)) (empty : worker.channel = []) :
      Step refuses worker { worker with phase := .handling (.saveView view) }
  | fills {worker : Worker ν} {view : ViewSave ν} (at_ : worker.phase = .coalescing view 0) :
      Step refuses worker { worker with phase := .handling (.saveView view) }
  | handles {worker : Worker ν} {command : Command ν} (at_ : worker.phase = .handling command) :
      Step refuses worker { worker with
        phase := if command.isQuit then .ended else .receiving
        session := command.handle refuses worker.session
        handled := worker.handled ++ [command] }

def Reachable {ν : Type} [DecidableEq ν] (refuses : ViewSave ν → Option String)
    (session : Session ν) (worker : Worker ν) : Prop :=
  Relation.ReflTransGen (Step refuses) (Worker.start session) worker

end ProgressiveReviewer.Runtime

/-! The worker handles every command it is sent, in order, but for editor views that a newer one
follows at once; and what is saved is what handling every one of them saves. -/

namespace ProgressiveReviewer.Runtime

open Library

variable {ν : Type} {refuses : ViewSave ν → Option String}

/-- Both commands save a view of one round. -/
def SameRound (command later : Command ν) : Prop :=
  ∃ view new, command = .saveView view ∧ later = .saveView new ∧ new.instance = view.instance

/-- The later view is newer, as its pane counts. -/
def Newer (command later : Command ν) : Prop :=
  ∃ view new, command = .saveView view ∧ later = .saveView new ∧
    new.instance = view.instance ∧ new.reviewUnit = view.reviewUnit ∧ view.sequence < new.sequence

/-- A view is saved, unless an earlier failure stopped the saving. -/
def Saves [DecidableEq ν] (refuses : ViewSave ν → Option String) (session : Session ν) (command : Command ν) :
    Prop :=
  ∀ view, command = .saveView view → session.storageError.isSome = true ∨
    ∃ records, session.records.saveView refuses view.reviewUnit view = .ok records

/-- The newer one of the view that is saved and another. -/
def latest (previous : Option (ViewSave ν)) (view : ViewSave ν) : ViewSave ν :=
  match previous with
  | some previous => if view.sequence ≤ previous.sequence then previous else view
  | none => view

namespace Records

variable {records : Records ν}

def keep (records : Records ν) (view : ViewSave ν) : Records ν :=
  { records with
    views := Function.update records.views (view.reviewUnit, view.instance)
      (some (latest (records.views (view.reviewUnit, view.instance)) view)) }

/-- A round takes a view. -/
structure Takes (refuses : ViewSave ν → Option String) (records : Records ν) (view : ViewSave ν) :
    Prop where
  round : view.instance ∈ records.rounds view.reviewUnit
  same : ∀ previous, records.views (view.reviewUnit, view.instance) = some previous →
    previous.sequence = view.sequence → previous = view
  writes : latest (records.views (view.reviewUnit, view.instance)) view = view →
    records.views (view.reviewUnit, view.instance) = some view ∨ refuses view = none

theorem write_eq_ok {after : Records ν} {view : ViewSave ν} :
    records.write refuses view = .ok after ↔ refuses view = none ∧
      { records with
        views := Function.update records.views (view.reviewUnit, view.instance) (some view) } =
        after := by
  cases refused : refuses view <;> simp [write, refused]

/-- Saving a view keeps the newer one. -/
theorem saveView_eq_ok [DecidableEq ν] {after : Records ν} {view : ViewSave ν} :
    records.saveView refuses view.reviewUnit view = .ok after ↔
      records.Takes refuses view ∧ records.keep view = after := by
  unfold saveView
  rw [if_neg (not_not.mpr rfl)]
  by_cases round : view.instance ∈ records.rounds view.reviewUnit
  · rw [if_neg (not_not.mpr round)]
    cases held : records.views (view.reviewUnit, view.instance) with
    | none =>
      rw [write_eq_ok]
      constructor
      · rintro ⟨refused, rfl⟩
        exact ⟨⟨round, by simp [held], fun _ => .inr refused⟩, by simp [keep, held, latest]⟩
      · rintro ⟨takes, rfl⟩
        have written := takes.writes (by rw [held]; rfl)
        exact ⟨by simpa [held] using written, by simp [keep, held, latest]⟩
    | some previous =>
      have stays (older : view.sequence ≤ previous.sequence) : records.keep view = records := by
        have own : some (latest (records.views (view.reviewUnit, view.instance)) view) =
            records.views (view.reviewUnit, view.instance) := by
          rw [held, latest, if_pos older]
        rw [keep, own, Function.update_eq_self]
      by_cases conflict : previous.sequence = view.sequence ∧ previous ≠ view
      · simp only [if_pos conflict]
        refine ⟨fun failed => (by cases failed), fun saved => ?_⟩
        exact absurd (saved.1.same previous held conflict.1) conflict.2
      · simp only [if_neg conflict]
        have same : previous.sequence = view.sequence → previous = view := by
          intro equal
          by_contra differs
          exact conflict ⟨equal, differs⟩
        by_cases older : view.sequence ≤ previous.sequence
        · rw [if_pos older, stays older, Except.ok.injEq]
          refine ⟨fun equal => ⟨⟨round, fun other is => ?_, fun own => ?_⟩, equal⟩, And.right⟩
          · cases held.symm.trans is
            exact same
          · rw [held, latest, if_pos older] at own
            exact .inl (by rw [held, own])
        · rw [if_neg older, write_eq_ok]
          have own : latest (records.views (view.reviewUnit, view.instance)) view = view := by
            rw [held, latest, if_neg older]
          rw [keep, own]
          refine and_congr_left fun _ => ⟨fun refused => ⟨round, fun other is => ?_,
            fun _ => .inr refused⟩, fun takes => ?_⟩
          · cases held.symm.trans is
            exact same
          · refine (takes.writes own).resolve_left fun is => ?_
            cases held.symm.trans is
            exact older (Nat.le_refl _)
  · rw [if_pos round]
    exact ⟨fun failed => (by cases failed), fun saved => absurd saved.1.round round⟩

/-- Of two views of a round, keeping the newer one last comes to keeping it alone. -/
theorem keep_keep {view new : ViewSave ν} (round : new.instance = view.instance)
    (unit : new.reviewUnit = view.reviewUnit) (newer : view.sequence < new.sequence) :
    (records.keep view).keep new = records.keep new := by
  have last : latest (some (latest (records.views (view.reviewUnit, view.instance)) view)) new =
      latest (records.views (view.reviewUnit, view.instance)) new := by
    have under : ¬ new.sequence ≤ view.sequence := by omega
    cases records.views (view.reviewUnit, view.instance) with
    | none => simp [latest, under]
    | some previous =>
      by_cases older : view.sequence ≤ previous.sequence
      · simp [latest, older]
      · have before : ¬ new.sequence ≤ previous.sequence := by omega
        simp [latest, older, under, before]
  simp [keep, round, unit, last]

/-- A round that takes a view, and a newer one after it, takes the newer one alone. -/
theorem takes_of_keep {view new : ViewSave ν} (round : new.instance = view.instance)
    (unit : new.reviewUnit = view.reviewUnit) (newer : view.sequence < new.sequence)
    (takes : (records.keep view).Takes refuses new) : records.Takes refuses new := by
  have held : (records.keep view).views (new.reviewUnit, new.instance) =
      some (latest (records.views (new.reviewUnit, new.instance)) view) := by
    simp [keep, round, unit]
  refine ⟨takes.round, fun previous is equal => ?_, fun own => ?_⟩
  · refine takes.same previous ?_ equal
    rw [held, is, latest, if_pos (by omega)]
  · have writes := takes.writes
    rw [held] at writes
    cases is : records.views (new.reviewUnit, new.instance) with
    | none =>
      rw [is] at writes
      have under : ¬ new.sequence ≤ view.sequence := by omega
      refine (writes (by simp [latest, under])).imp (fun same => ?_) id
      cases same
      exact absurd newer (Nat.lt_irrefl _)
    | some previous =>
      rw [is] at writes own
      by_cases older : view.sequence ≤ previous.sequence
      · simpa [latest, older] using writes (by simpa [latest, older] using own)
      · have under : ¬ new.sequence ≤ view.sequence := by omega
        have writes := writes (by simp [latest, older, under])
        refine writes.imp (fun same => ?_) id
        rw [latest, if_neg older] at same
        cases same
        exact absurd newer (Nat.lt_irrefl _)

end Records

section Handling

variable [DecidableEq ν]

theorem saveView_takes {session : Session ν} {view : ViewSave ν}
    (sound : session.storageError = none) (takes : session.records.Takes refuses view) :
    session.saveView refuses view = { session with
      records := session.records.keep view
      lastView := if session.loadedUnit = some view.reviewUnit then some view
        else session.lastView } := by
  have saved := Records.saveView_eq_ok.mpr ⟨takes, rfl⟩
  rw [Session.saveView, if_neg (by simp [sound])]
  simp only [saved]
  split_ifs <;> rfl

/-- Saving a view and then a newer one of its round comes to saving the newer one. -/
theorem handle_handle {session : Session ν} {command later : Command ν}
    (newer : Newer command later) (own : Saves refuses session command)
    (after : Saves refuses (command.handle refuses session) later) :
    Saves refuses session later ∧ later.handle refuses (command.handle refuses session) =
      later.handle refuses session := by
  obtain ⟨view, new, rfl, rfl, round, unit, newer⟩ := newer
  simp only [Command.handle] at after ⊢
  cases sound : session.storageError with
  | some failure =>
    have failed : session.storageError.isSome = true := by simp [sound]
    have unchanged : session.saveView refuses view = session := if_pos failed
    rw [unchanged]
    exact ⟨fun _ _ => .inl failed, rfl⟩
  | none =>
    obtain ⟨saved, took⟩ := (own view rfl).resolve_left (by simp [sound])
    have result := saveView_takes sound (Records.saveView_eq_ok.mp took).1
    rw [result] at after ⊢
    obtain ⟨_, tookNew⟩ := (after new rfl).resolve_left (by simp [sound])
    have takesNew := (Records.saveView_eq_ok.mp tookNew).1
    have takes := Records.takes_of_keep round unit newer takesNew
    rw [saveView_takes sound takes, saveView_takes (by exact sound) takesNew]
    refine ⟨fun other is => .inr ?_, ?_⟩
    · cases is
      exact ⟨_, Records.saveView_eq_ok.mpr ⟨takes, rfl⟩⟩
    · simp only [Records.keep_keep round unit newer, unit]
      split_ifs <;> rfl

end Handling

namespace Phase

/-- The command that the worker works on. -/
def working : Phase ν → List (Command ν)
  | coalescing view _ => [.saveView view]
  | handling command => [command]
  | _ => []

@[simp] theorem working_receiving : (receiving : Phase ν).working = [] := rfl

@[simp] theorem working_coalescing (view : ViewSave ν) (left : Nat) :
    (coalescing view left).working = [.saveView view] := rfl

@[simp] theorem working_handling (command : Command ν) :
    (handling command).working = [command] := rfl

/-- A command that came after a view to save waits. -/
def looksAhead : Phase ν → Bool
  | coalescing _ _ => false
  | _ => true

end Phase

namespace Worker

structure Inv [DecidableEq ν] (refuses : ViewSave ν → Option String) (session : Session ν)
    (worker : Worker ν) : Prop where
  /-- Views that a newer one of their round follows at once are left out. -/
  taken : ∃ done, worker.sent = done ++ worker.channel ∧
    Thinned SameRound done (worker.handled ++ worker.phase.working ++ worker.next.toList)
  next : worker.phase.looksAhead = false → worker.next = none
  session : worker.session = worker.handled.foldl (Command.handle refuses) session
  quit : ∀ command ∈ worker.handled, command.isQuit = true → worker.phase = .ended ∧
    ∃ front, worker.handled = front ++ [command] ∧ ∀ before ∈ front, before.isQuit = false

@[simp] theorem working_begin (command : Command ν) : (begin command).working = [command] := by
  cases command <;> rfl

variable [DecidableEq ν] {session : Session ν} {worker : Worker ν}

/-- No command was handled that ends the worker, while it goes on. -/
theorem Inv.goes_on (inv : worker.Inv refuses session) (going : worker.phase ≠ .ended) :
    ∀ command ∈ worker.handled, command.isQuit = false := by
  intro command mem
  by_contra quit
  exact going (inv.quit command mem (by simpa using quit)).1

theorem inv_start (session : Session ν) : (start session).Inv refuses session :=
  ⟨⟨[], rfl, .nil⟩, fun _ => rfl, rfl, fun _ mem => by cases mem⟩

theorem inv_step {after : Worker ν} (inv : worker.Inv refuses session)
    (step : Step refuses worker after) : after.Inv refuses session := by
  obtain ⟨done, sent, thinned⟩ := inv.taken
  cases step with
  | sends command =>
    exact ⟨⟨done, by simp [sent], thinned⟩, inv.next, inv.session, inv.quit⟩
  | @takes command receiving next =>
    rw [receiving, next] at thinned
    refine ⟨⟨done, sent, ?_⟩, fun _ => rfl, inv.session, fun other mem quit => ?_⟩
    · simpa using thinned
    · have on := inv.goes_on (by simp [receiving]) other mem
      simp [on] at quit
  | @receives command channel receiving none first =>
    rw [receiving, none] at thinned
    refine ⟨⟨done ++ [command], by simp [sent, first], ?_⟩, fun _ => none, inv.session,
      fun other mem quit => ?_⟩
    · simpa [none] using thinned.append (.refl [command])
    · have on := inv.goes_on (by simp [receiving]) other mem
      simp [on] at quit
  | @coalesces view new left channel at_ first same =>
    have none := inv.next (by rw [at_]; rfl)
    rw [at_, none] at thinned
    refine ⟨⟨done ++ [.saveView new], by simp [sent, first], ?_⟩, fun _ => none, inv.session,
      fun other mem quit => ?_⟩
    · simp only [Phase.working_coalescing, Option.toList_none, List.append_nil, none] at thinned ⊢
      exact thinned.absorb ⟨view, new, rfl, rfl, same⟩
    · have on := inv.goes_on (by simp [at_]) other mem
      simp [on] at quit
  | @finds view left command channel at_ first other =>
    have none := inv.next (by rw [at_]; rfl)
    rw [at_, none] at thinned
    refine ⟨⟨done ++ [command], by simp [sent, first], ?_⟩, fun ahead => (by cases ahead),
      inv.session, fun other mem quit => ?_⟩
    · simpa using thinned.append (.refl [command])
    · have on := inv.goes_on (by simp [at_]) other mem
      simp [on] at quit
  | empties at_ empty =>
    rw [at_] at thinned
    refine ⟨⟨done, sent, thinned⟩, fun ahead => (by cases ahead), inv.session,
      fun other mem quit => ?_⟩
    have on := inv.goes_on (by simp [at_]) other mem
    simp [on] at quit
  | fills at_ =>
    rw [at_] at thinned
    refine ⟨⟨done, sent, thinned⟩, fun ahead => (by cases ahead), inv.session,
      fun other mem quit => ?_⟩
    have on := inv.goes_on (by simp [at_]) other mem
    simp [on] at quit
  | @handles command at_ =>
    rw [at_] at thinned
    have on := inv.goes_on (by simp [at_])
    refine ⟨⟨done, sent, ?_⟩, fun ahead => ?_, by simp [inv.session], fun other mem quit => ?_⟩
    · have idle : (if command.isQuit then Phase.ended else .receiving : Phase ν).working = [] := by
        split_ifs <;> rfl
      simpa [idle] using thinned
    · split_ifs at ahead <;> cases ahead
    · rcases List.mem_append.mp mem with mem | mem
      · simp [on other mem] at quit
      · obtain rfl := List.mem_singleton.mp mem
        exact ⟨if_pos quit, worker.handled, rfl, on⟩

theorem reachable_inv (reached : Reachable refuses session worker) :
    worker.Inv refuses session := by
  induction reached with
  | refl => exact inv_start session
  | tail _ step inv => exact inv_step inv step

/-- However commands are sent while the worker runs: it handles every command once and in order, but
for a view that a newer one of its round follows at once, and none after the one that ends it; and
as long as the panes count their views and each of them can be saved, what is saved is what handling
every command would have saved. -/
theorem reachable_saves (reached : Reachable refuses session worker) :
    (∃ done, worker.sent = done ++ worker.channel ∧
      Thinned SameRound done (worker.handled ++ worker.phase.working ++ worker.next.toList) ∧
      (worker.sent.IsChain (fun command later => SameRound command later → Newer command later) →
        AllFine (Command.handle refuses) (Saves refuses) session worker.sent →
          worker.phase.working = [] → worker.next = none →
            worker.session = done.foldl (Command.handle refuses) session)) ∧
      ∀ command ∈ worker.handled, command.isQuit = true → worker.phase = .ended ∧
        ∃ front, worker.handled = front ++ [command] ∧ ∀ before ∈ front, before.isQuit = false := by
  have inv := reachable_inv reached
  obtain ⟨done, sent, thinned⟩ := inv.taken
  refine ⟨⟨done, sent, thinned, fun counts fine idle none => ?_⟩, inv.quit⟩
  rw [idle, none, List.append_nil, Option.toList_none, List.append_nil] at thinned
  rw [sent] at counts fine
  have newer : Thinned Newer done worker.handled := thinned.imp counts.left_of_append
  rw [inv.session]
  exact newer.foldl_eq (fun _ _ _ => handle_handle) fine.of_append

/-- Two views of a round are sent at once, and the newer one is saved. -/
theorem reachable_saves_newest : ∃ worker : Worker Nat,
    worker.handled.length = 1 ∧ worker.sent.length = 2 ∧
      worker.session.lastView = some ⟨"unit", "round", 2, 5⟩ ∧
      worker.session = worker.sent.foldl (Command.handle fun _ => none)
        ⟨⟨fun _ => ["round"], fun _ => none⟩, some "unit", none, none, []⟩ := by
  have first := Relation.ReflTransGen.refl.tail (@Step.sends Nat _ (fun _ => none)
    (.start ⟨⟨fun _ => ["round"], fun _ => none⟩, some "unit", none, none, []⟩)
    (.saveView ⟨"unit", "round", 1, 4⟩))
  have received := (first.tail (.sends (.saveView ⟨"unit", "round", 2, 5⟩))).tail
    (.receives rfl rfl rfl)
  have coalesced := (received.tail (.coalesces rfl rfl rfl)).tail (.empties rfl rfl)
  have handled := coalesced.tail (.handles rfl)
  obtain ⟨⟨done, sent, -, saves⟩, -⟩ := reachable_saves handled
  refine ⟨_, rfl, rfl, rfl, (saves ?_ ?_ rfl rfl).trans ?_⟩
  · refine .cons_cons (fun _ => ⟨_, _, rfl, rfl, rfl, rfl, by decide⟩) (.singleton _)
  · refine ⟨fun view is => ?_, fun view is => ?_, trivial⟩ <;> cases is <;> exact .inr ⟨_, rfl⟩
  · rw [List.append_nil] at sent
    rw [← sent]

end Worker

end ProgressiveReviewer.Runtime
