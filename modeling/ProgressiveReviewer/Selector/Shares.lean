import ProgressiveReviewer.Selector.History
import Mathlib.Data.List.Count
import Mathlib.Tactic.ByContra
import Mathlib.Data.List.Perm.Basic

/-! Every revision of the latest history gets its share, once, and a share that is shown is that
of its commit under the review marks as they are. -/

namespace ProgressiveReviewer.Selector

variable {π μ : Type} {repository : Repository π μ}

namespace World

/-- What every step of the processes keeps of the marks: a stamp that was used is not used again,
so that marks with the stamp they had are the ones they were, unless a save is under way. -/
structure Later (world later : World μ) : Prop where
  used : ∀ changeId, world.used changeId ⊆ later.used changeId
  stamped : ∀ changeId, later.stamp changeId ∈ later.used changeId
  saved : ∀ changeId, world.saved changeId ≤ later.saved changeId
  marks : ∀ changeId, later.saved changeId = world.saved changeId →
    later.marks changeId = world.marks changeId
  settled : ∀ changeId, later.stamp changeId ∈ world.used changeId →
    later.stamp changeId = world.stamp changeId ∧
      (0 < later.saving changeId ∨ later.saving changeId = world.saving changeId ∧
        later.saved changeId = world.saved changeId)

variable {world : World μ}

theorem later_refl (stamped : ∀ changeId, world.stamp changeId ∈ world.used changeId) :
    world.Later world :=
  ⟨fun _ => List.Subset.refl _, stamped, fun _ => Nat.le_refl _, fun _ _ => rfl,
    fun _ _ => ⟨rfl, .inr ⟨rfl, rfl⟩⟩⟩

theorem later_rewrite (stamped : ∀ changeId, world.stamp changeId ∈ world.used changeId)
    (changeId commit : String) : world.Later (world.rewrite changeId commit) :=
  ⟨fun _ => List.Subset.refl _, stamped, fun _ => Nat.le_refl _, fun _ _ => rfl,
    fun _ _ => ⟨rfl, .inr ⟨rfl, rfl⟩⟩⟩

theorem later_save (stamped : ∀ changeId, world.stamp changeId ∈ world.used changeId)
    (changeId : String) (marks : String → μ) {saving : Nat} (under : 0 < saving) :
    world.Later (world.save changeId marks saving) := by
  refine ⟨fun _ => List.Subset.refl _, stamped, fun other => ?_, fun other same => ?_,
    fun other _ => ⟨rfl, ?_⟩⟩ <;> by_cases same : other = changeId <;>
    simp_all [save]

theorem later_stampMarks (stamped : ∀ changeId, world.stamp changeId ∈ world.used changeId)
    (changeId stamp : String) (saving : Nat) (fresh : some stamp ∉ world.used changeId) :
    world.Later (world.stampMarks changeId stamp saving) := by
  refine ⟨fun other => ?_, fun other => ?_, fun _ => Nat.le_refl _, fun _ _ => rfl,
    fun other used => ?_⟩ <;> by_cases same : other = changeId
  · simp [stampMarks, same]
  · simp [stampMarks, same]
  · simp [stampMarks, same]
  · simpa [stampMarks, same] using stamped other
  · subst same
    exact absurd (by simpa [stampMarks] using used) fresh
  · simp [stampMarks, same]

end World

/-- The stamp was read before the marks: while it is theirs, and no save is under way, no mark
changed since. -/
structure Task.Follows (task : Task) (world : World μ) : Prop where
  begun : task.begun ≤ world.saved task.changeId
  used : ∀ stamp, task.stamp = some stamp → stamp ∈ world.used task.changeId
  steady : ∀ stamp, task.stamp = some stamp → stamp = world.stamp task.changeId →
    0 < world.saving task.changeId ∨ task.begun = world.saved task.changeId

/-- The marks that were read are those of the first paths of the commit, unless they changed
meanwhile. -/
def Task.Reads (task : Task) (world : World μ) (files : List String) (read : List μ)
    (left : List String) : Prop :=
  task.begun = world.saved task.changeId →
    ∃ done, files = done ++ left ∧ read = done.map (world.marks task.changeId)

theorem Task.Follows.later {task : Task} {world later : World μ} (follows : task.Follows world)
    (keeps : world.Later later) : task.Follows later := by
  refine ⟨Nat.le_trans follows.begun (keeps.saved _),
    fun stamp read => keeps.used _ (follows.used stamp read), fun stamp read now => ?_⟩
  obtain ⟨same, under | ⟨saving, saved⟩⟩ :=
    keeps.settled task.changeId (now ▸ follows.used stamp read)
  · exact .inl under
  · rw [saving, saved]
    exact follows.steady stamp read (now.trans same)

theorem Task.Reads.later {task : Task} {world later : World μ} {files left : List String}
    {read : List μ} (reads : task.Reads world files read left) (follows : task.Follows world)
    (keeps : world.Later later) : task.Reads later files read left := by
  intro begun
  have saved : later.saved task.changeId = world.saved task.changeId :=
    Nat.le_antisymm (begun ▸ follows.begun) (keeps.saved _)
  rw [keeps.marks _ saved]
  exact reads (begun.trans saved)

/-- A share that is kept is that of its commit while the marks have its stamp, unless a save is
under way. -/
structure Known.Holds (repository : Repository π μ) (world : World μ) (changeId : String)
    (known : Known π) : Prop where
  used : known.stamp ∈ world.used changeId
  right : known.stamp = world.stamp changeId → 0 < world.saving changeId ∨
    known.progress = repository.share known.commit (world.marks changeId)

theorem Known.Holds.later {world later : World μ} {changeId : String} {known : Known π}
    (holds : known.Holds repository world changeId) (keeps : world.Later later) :
    known.Holds repository later changeId := by
  refine ⟨keeps.used _ holds.used, fun now => ?_⟩
  obtain ⟨same, under | ⟨saving, saved⟩⟩ := keeps.settled changeId (now ▸ holds.used)
  · exact .inl under
  · rw [saving, keeps.marks _ saved]
    exact holds.right (now.trans same)

namespace Phase

/-- The revision whose share is being computed. -/
def computing : Phase π μ → List String
  | stamped task | reading task _ _ _ => [task.changeId]
  | _ => []

/-- The revisions of a new history that were not looked up yet. -/
def left : Phase π μ → List String
  | starting _ rows _ => rows.map Prod.fst
  | _ => []

def isStarting : Phase π μ → Bool
  | starting _ _ _ => true
  | _ => false

def of (loadId : Option Nat) : Phase π μ → Prop
  | idle => True
  | starting own _ _ => some own = loadId
  | stamped task | reading task _ _ _ => some task.loadId = loadId

def Holds (repository : Repository π μ) (world : World μ) : Phase π μ → Prop
  | stamped task => task.Follows world
  | reading task commit read left =>
    task.Follows world ∧ task.Reads world (repository.files commit) read left
  | _ => True

theorem Holds.later {world later : World μ} {phase : Phase π μ}
    (holds : phase.Holds repository world) (keeps : world.Later later) :
    phase.Holds repository later := by
  cases phase with
  | idle => trivial
  | starting loadId rows known => trivial
  | stamped task => exact Task.Follows.later holds keeps
  | reading task commit read left =>
    exact ⟨holds.1.later keeps, holds.2.later holds.1 keeps⟩

end Phase

/-- A share is that of its commit under the marks as they are, unless these are being saved. -/
def Sent.Exact (repository : Repository π μ) (sent : Sent π μ) : Prop :=
  ∀ progress, sent.result = .ok progress → sent.unsettled = true ∨
    ∃ commit, sent.commit = some commit ∧ progress = repository.share commit sent.marks

namespace Worker

variable (worker : Worker π μ)

/-- The shares of the latest history that were found so far. -/
def found : List (Sent π μ) :=
  match worker.phase with
  | .starting _ _ known => known
  | _ => worker.sent

/-- Each revision of the latest history that was looked up has its share, or is to get it: those
still known come first, and the others in the order of the history. -/
structure Covers (known computed unknown looked : List String) : Prop where
  asked : worker.asked = looked ++ worker.phase.left
  kept : known.Sublist looked
  missing : unknown.Sublist looked
  all : (known ++ unknown).Perm looked
  found : worker.found.map Sent.changeId = known ++ computed
  rest : computed ++ worker.phase.computing ++ worker.history.revisions = unknown
  starting : worker.phase.isStarting = true → computed = []

/-- What holds in every state that is reached, but for the queue of an idle worker. -/
structure Core (repository : Repository π μ) : Prop where
  queued : worker.commands.count .revisionProgress = if worker.history.queued then 1 else 0
  stamped : ∀ changeId, worker.world.stamp changeId ∈ worker.world.used changeId
  known : ∀ changeId known, worker.history.known changeId = some known →
    known.Holds repository worker.world changeId
  holds : worker.phase.Holds repository worker.world
  loadId : worker.phase.of worker.history.loadId
  named : worker.history.revisions ≠ [] → worker.history.loadId.isSome = true
  exact_ : ∀ sent ∈ worker.found,
    sent.Exact repository ∧ some sent.loadId = worker.history.loadId
  covers : ∃ known computed unknown looked, worker.Covers known computed unknown looked

/-- An idle worker with revisions left has its command queued. -/
structure Inv (repository : Repository π μ) : Prop extends worker.Core repository where
  going : worker.phase = .idle → worker.history.revisions ≠ [] → worker.history.queued = true

variable {worker}

theorem inv_begins (begins : worker.begins) : worker.Inv repository := by
  obtain ⟨count, history, phase, asked, sent, stamped⟩ := begins
  have found : worker.found = [] := by simp [Worker.found, phase, sent]
  refine ⟨⟨by simp [count, history, HistoryProgress.empty], stamped, ?_, ?_, ?_, ?_, ?_, ?_⟩, ?_⟩
  · simp [history, HistoryProgress.empty]
  · simp [phase, Phase.Holds]
  · simp [phase, Phase.of]
  · simp [history, HistoryProgress.empty]
  · simp [found]
  · exact ⟨[], [], [], [], by simp [asked, phase, Phase.left], .refl _, .refl _, .refl _,
      by simp [found], by simp [phase, Phase.computing, history, HistoryProgress.empty], by simp⟩
  · simp [history, HistoryProgress.empty]

/-- Queueing the command leaves it queued when a revision is left. -/
theorem inv_queueNext (core : worker.Core repository) : worker.queueNext.Inv repository := by
  refine ⟨⟨?_, core.stamped, core.known, core.holds, core.loadId, core.named, core.exact_, ?_⟩, ?_⟩
  · have queued := core.queued
    simp only [queueNext, HistoryProgress.queue, List.count_append]
    by_cases now : worker.history.queued = true <;>
      by_cases left : worker.history.revisions = [] <;> simp_all
  · obtain ⟨known, computed, unknown, looked, covers⟩ := core.covers
    exact ⟨known, computed, unknown, looked, covers.asked, covers.kept, covers.missing, covers.all,
      covers.found, covers.rest, covers.starting⟩
  · intro _ left
    have left : worker.history.revisions ≠ [] := left
    simp [queueNext, HistoryProgress.queue, left]

/-- A step of the other processes, or one that another thread's command takes. -/
theorem inv_aside (inv : worker.Inv repository) {world : World μ} {commands : List Command}
    (keeps : worker.world.Later world)
    (count : commands.count .revisionProgress = worker.commands.count .revisionProgress) :
    Worker.Inv { worker with world := world, commands := commands } repository := by
  obtain ⟨kept, computed, unknown, looked, covers⟩ := inv.covers
  refine ⟨⟨count.trans inv.queued, keeps.stamped,
    fun changeId known held => (inv.known changeId known held).later keeps,
    inv.holds.later keeps, inv.loadId, inv.named, inv.exact_, ?_⟩, inv.going⟩
  exact ⟨kept, computed, unknown, looked, covers.asked, covers.kept, covers.missing, covers.all,
    covers.found, covers.rest, covers.starting⟩

theorem inv_starts (inv : worker.Inv repository) {commands : List Command} {loadId : Nat}
    (lines : List HistoryLine) (first : worker.commands = .loadHistory loadId :: commands) :
    Worker.Inv { worker with
      commands := commands
      history := worker.history.start loadId (rows lines)
      phase := .starting loadId (rows lines) []
      asked := (rows lines).map Prod.fst
      sent := [] } repository := by
  refine ⟨⟨?_, inv.stamped, ?_, trivial, rfl, fun _ => rfl, by simp [Worker.found], ?_⟩,
    fun idle => by cases idle⟩
  · have queued := inv.queued
    rw [first, List.count_cons_of_ne (by simp)] at queued
    exact queued
  · intro changeId known held
    simp only [HistoryProgress.start] at held
    split at held
    · exact inv.known changeId known held
    · cases held
  · exact ⟨[], [], [], [], by simp [Phase.left], .refl _, .refl _, .refl _, rfl,
      by simp [Phase.computing, HistoryProgress.start], fun _ => rfl⟩

/-- A share that is still known is that of its commit under the marks as they are. -/
theorem still_exact (inv : worker.Inv repository) {loadId : Nat} {row : String × Option String}
    {readable : Bool} {progress : π}
    (hit : worker.history.stillKnown row.1 row.2 (worker.marksStamp row.1 readable) =
      some progress) :
    Sent.Exact repository (⟨loadId, row.1, .ok progress, row.2, worker.world.marks row.1,
      decide (0 < worker.world.saving row.1)⟩ : Sent π μ) := by
  cases readable with
  | false => simp [HistoryProgress.stillKnown, marksStamp] at hit
  | true =>
    simp only [HistoryProgress.stillKnown, marksStamp, if_true, Option.bind_eq_bind,
      Option.bind_eq_some_iff] at hit
    obtain ⟨known, held, stamp, read, hit⟩ := hit
    obtain rfl := Option.some.inj read
    split at hit
    · rename_i same
      cases hit
      intro progress shown
      cases shown
      refine ((inv.known row.1 known held).right same.2).imp (fun under => ?_) (fun equal => ?_)
      · exact decide_eq_true under
      · exact ⟨known.commit, same.1.symm, equal⟩
    · cases hit

theorem inv_looksUp (inv : worker.Inv repository) {loadId : Nat} {row : String × Option String}
    {rest : List (String × Option String)} {known : List (Sent π μ)} (readable : Bool)
    (at_ : worker.phase = .starting loadId (row :: rest) known) :
    (worker.lookUp loadId row rest known readable).Inv repository := by
  obtain ⟨kept, computed, unknown, looked, covers⟩ := inv.covers
  obtain rfl : computed = [] := covers.starting (by rw [at_]; rfl)
  have own := inv.loadId
  have exact_ := inv.exact_
  have asked := covers.asked
  have found := covers.found
  have rest_ := covers.rest
  simp only [Worker.found, at_, Phase.of, Phase.left, Phase.computing, List.append_nil,
    List.nil_append, List.map_cons] at own exact_ asked found rest_
  have asked : worker.asked = (looked ++ [row.1]) ++ rest.map Prod.fst := by simp [asked]
  rw [lookUp]
  split
  · rename_i progress hit
    refine ⟨⟨inv.queued, inv.stamped, inv.known, trivial, own, inv.named, ?_, ?_⟩,
      fun idle => by cases idle⟩
    · intro sent mem
      rcases List.mem_append.mp mem with mem | mem
      · exact exact_ sent mem
      · obtain rfl := List.mem_singleton.mp mem
        exact ⟨still_exact inv hit, own⟩
    · refine ⟨kept ++ [row.1], [], unknown, looked ++ [row.1], asked, covers.kept.append (.refl _),
        covers.missing.trans (List.sublist_append_left _ _), ?_, ?_, rest_, fun _ => rfl⟩
      · have moved : (kept ++ [row.1] ++ unknown).Perm ((kept ++ unknown) ++ [row.1]) := by
          rw [List.append_assoc, List.append_assoc]
          exact List.perm_append_comm.append_left kept
        exact moved.trans (covers.all.append_right _)
      · simp [Worker.found, found]
  · refine ⟨⟨inv.queued, inv.stamped, inv.known, trivial, own, fun _ => own ▸ rfl, exact_, ?_⟩,
      fun idle => by cases idle⟩
    refine ⟨kept, [], unknown ++ [row.1], looked ++ [row.1], asked,
      covers.kept.trans (List.sublist_append_left _ _), covers.missing.append (.refl _), ?_, ?_, ?_,
      fun _ => rfl⟩
    · rw [← List.append_assoc]
      exact covers.all.append_right _
    · simp [Worker.found, found]
    · simp [Phase.computing, rest_]

theorem inv_started (inv : worker.Inv repository) {loadId : Nat} {known : List (Sent π μ)}
    (at_ : worker.phase = .starting loadId [] known) :
    (Worker.queueNext { worker with phase := .idle, sent := known }).Inv repository := by
  obtain ⟨kept, computed, unknown, looked, covers⟩ := inv.covers
  have found : worker.found = known := by rw [Worker.found, at_]
  have asked := covers.asked
  have rest := covers.rest
  rw [at_] at asked rest
  refine inv_queueNext ⟨inv.queued, inv.stamped, inv.known, trivial, trivial, inv.named, ?_, ?_⟩
  · exact found ▸ inv.exact_
  · exact ⟨kept, computed, unknown, looked, asked, covers.kept, covers.missing, covers.all,
      found ▸ covers.found, rest, fun starting => by cases starting⟩

/-- The command for the next revision is queued once. -/
theorem popped (inv : worker.Inv repository) {commands : List Command}
    (first : worker.commands = .revisionProgress :: commands) :
    commands.count .revisionProgress = 0 := by
  have queued := inv.queued
  rw [first, List.count_cons_self] at queued
  split at queued <;> omega

theorem inv_finds (inv : worker.Inv repository) {commands : List Command}
    (first : worker.commands = .revisionProgress :: commands)
    (none : worker.history.next.1 = none) :
    Worker.Inv { worker with commands := commands, history := worker.history.next.2 }
      repository := by
  have done : worker.history.revisions = [] := by
    by_contra left
    obtain ⟨loadId, named⟩ := Option.isSome_iff_exists.mp (inv.named left)
    obtain ⟨changeId, rest, left⟩ := List.exists_cons_of_ne_nil left
    simp [HistoryProgress.next, named, left] at none
  have next : worker.history.next.2 = { worker.history with queued := false } := by
    unfold HistoryProgress.next
    cases named : worker.history.loadId <;> simp [done, named]
  obtain ⟨kept, computed, unknown, looked, covers⟩ := inv.covers
  rw [next]
  refine ⟨⟨by simp [popped inv first], inv.stamped, inv.known, inv.holds, inv.loadId, inv.named,
    inv.exact_, ?_⟩, fun _ left => absurd done left⟩
  exact ⟨kept, computed, unknown, looked, covers.asked, covers.kept, covers.missing, covers.all,
    covers.found, covers.rest, covers.starting⟩

/-- The next revision is the first one left, of the latest history. -/
theorem next_some {history : HistoryProgress π} {loadId : Nat} {changeId : String}
    (next : history.next.1 = some (loadId, changeId)) : ∃ rest, history.loadId = some loadId ∧
      history.revisions = changeId :: rest ∧
      history.next.2 = { history with queued := false, revisions := rest } := by
  cases named : history.loadId with
  | none => simp [HistoryProgress.next, named] at next
  | some own =>
    cases revisions : history.revisions with
    | nil => simp [HistoryProgress.next, named, revisions] at next
    | cons first rest =>
      simp only [HistoryProgress.next, named, revisions, Option.some.injEq, Prod.mk.injEq] at next
      obtain ⟨rfl, rfl⟩ := next
      exact ⟨rest, rfl, rfl, by simp [HistoryProgress.next, named, revisions]⟩

theorem inv_takes (inv : worker.Inv repository) {commands : List Command} {loadId : Nat}
    {changeId : String} (readable : Bool) (idle : worker.phase = .idle)
    (first : worker.commands = .revisionProgress :: commands)
    (next : worker.history.next.1 = some (loadId, changeId)) :
    Worker.Inv { worker with
      commands := commands
      history := worker.history.next.2
      phase := .stamped ⟨loadId, changeId, worker.marksStamp changeId readable,
        worker.world.saved changeId⟩ } repository := by
  obtain ⟨rest, named, revisions, after⟩ := next_some next
  obtain ⟨kept, computed, unknown, looked, covers⟩ := inv.covers
  have found := covers.found
  have rest_ := covers.rest
  have asked := covers.asked
  have exact_ := inv.exact_
  simp only [Worker.found, idle] at found exact_ rest_ asked
  rw [revisions] at rest_
  rw [after]
  refine ⟨⟨by simp [popped inv first], inv.stamped, inv.known, ?_, named.symm, fun _ => named ▸ rfl,
    exact_, ?_⟩, fun idle => by cases idle⟩
  · refine ⟨Nat.le_refl _, fun stamp read => ?_, fun _ _ _ => .inr rfl⟩
    have read : (if readable then some (worker.world.stamp changeId) else none) = some stamp := read
    split at read
    · exact Option.some.inj read ▸ inv.stamped changeId
    · cases read
  · exact ⟨kept, computed, unknown, looked, by simpa [Phase.left] using asked, covers.kept,
      covers.missing, covers.all, found, by simpa [Phase.computing] using rest_,
      fun starting => by cases starting⟩

/-- The share of a revision is being computed from one phase to the next. -/
theorem inv_computing (inv : worker.Inv repository) {phase : Phase π μ} {changeId : String}
    (before : worker.phase.computing = [changeId]) (after : phase.computing = [changeId])
    (own : phase.of worker.history.loadId) (holds : phase.Holds repository worker.world) :
    Worker.Inv { worker with phase := phase } repository := by
  obtain ⟨kept, computed, unknown, looked, covers⟩ := inv.covers
  have found : Worker.found { worker with phase := phase } = worker.found := by
    cases now : worker.phase <;> cases phase <;> simp_all [Worker.found, Phase.computing]
  have left : phase.left = worker.phase.left := by
    cases now : worker.phase <;> cases phase <;> simp_all [Phase.left, Phase.computing]
  refine ⟨⟨inv.queued, inv.stamped, inv.known, holds, own, inv.named, by
    rw [found]; exact inv.exact_, ?_⟩, ?_⟩
  · refine ⟨kept, computed, unknown, looked, ?_, covers.kept, covers.missing, covers.all, ?_, ?_, ?_⟩
    · exact left ▸ covers.asked
    · exact found ▸ covers.found
    · have rest := covers.rest
      rw [before] at rest
      rw [← rest, ← after]
    · cases phase <;> simp_all [Phase.isStarting, Phase.computing]
  · intro idle
    have idle : phase = .idle := idle
    simp [idle, Phase.computing] at after

theorem inv_loads (inv : worker.Inv repository) {task : Task} (at_ : worker.phase = .stamped task) :
    Worker.Inv { worker with
      phase := .reading task (worker.world.commit task.changeId) []
        (repository.files (worker.world.commit task.changeId)) } repository := by
  have own := inv.loadId
  have holds := inv.holds
  rw [at_] at own holds
  exact inv_computing inv (by rw [at_]; rfl) rfl own ⟨holds, fun _ => ⟨[], rfl, rfl⟩⟩

theorem inv_reads (inv : worker.Inv repository) {task : Task} {commit path : String} {read : List μ}
    {left : List String} (at_ : worker.phase = .reading task commit read (path :: left)) :
    Worker.Inv { worker with
      phase := .reading task commit (read ++ [worker.world.marks task.changeId path]) left }
      repository := by
  have own := inv.loadId
  have holds := inv.holds
  rw [at_] at own holds
  refine inv_computing inv (by rw [at_]; rfl) rfl own ⟨holds.1, fun begun => ?_⟩
  obtain ⟨done, files, read⟩ := holds.2 begun
  exact ⟨done ++ [path], by simp [files], by simp [read]⟩

/-- The share of the revision that is being computed is sent, and the next one is queued. -/
theorem inv_send (inv : worker.Inv repository) {task : Task} {commit : Option String}
    {result : Except String π} {known : String → Option (Known π)}
    (computing : worker.phase.computing = [task.changeId])
    (own : some task.loadId = worker.history.loadId)
    (holds : ∀ changeId entry, known changeId = some entry →
      entry.Holds repository worker.world changeId)
    (exact_ : (worker.tells task commit result).Exact repository) :
    (Worker.send { worker with history := { worker.history with known := known } }
      (worker.tells task commit result)).Inv repository := by
  obtain ⟨kept, computed, unknown, looked, covers⟩ := inv.covers
  have found : worker.found = worker.sent := by
    cases at_ : worker.phase <;> simp_all [Worker.found, Phase.computing]
  have left : worker.phase.left = [] := by
    cases at_ : worker.phase <;> simp_all [Phase.left, Phase.computing]
  refine inv_queueNext ⟨inv.queued, inv.stamped, holds, trivial, trivial, inv.named, ?_, ?_⟩
  · intro shown mem
    rcases List.mem_append.mp mem with mem | mem
    · exact inv.exact_ shown (found ▸ mem)
    · obtain rfl := List.mem_singleton.mp mem
      exact ⟨exact_, own⟩
  · refine ⟨kept, computed ++ [task.changeId], unknown, looked, ?_, covers.kept, covers.missing,
      covers.all, ?_, ?_, fun starting => by cases starting⟩
    · have asked := covers.asked
      rw [left] at asked
      simpa [Phase.left] using asked
    · have shown := covers.found
      rw [found] at shown
      simp [Worker.found, shown, tells]
    · have rest := covers.rest
      rw [computing] at rest
      simpa [Phase.computing] using rest

/-- The share that is computed is that of its commit, unless the marks changed while they were
read; so it is kept with the stamp that they had before. -/
theorem inv_computes (inv : worker.Inv repository) {task : Task} {commit : String} {read : List μ}
    (at_ : worker.phase = .reading task commit read []) :
    ((worker.keep task commit (repository.progress commit read)).send
      (worker.tells task (some commit) (.ok (repository.progress commit read)))).Inv
      repository := by
  have own := inv.loadId
  have holds := inv.holds
  rw [at_] at own holds
  obtain ⟨follows, reads⟩ := holds
  have computing : worker.phase.computing = [task.changeId] := by rw [at_]; rfl
  have right : task.begun = worker.world.saved task.changeId →
      repository.progress commit read =
        repository.share commit (worker.world.marks task.changeId) := by
    intro begun
    obtain ⟨done, files, read⟩ := reads begun
    rw [Repository.share, files, List.append_nil, read]
  have exact_ : (worker.tells task (some commit)
      (.ok (repository.progress commit read))).Exact repository := by
    intro progress shown
    cases shown
    by_cases begun : task.begun = worker.world.saved task.changeId
    · exact .inr ⟨commit, rfl, right begun⟩
    · exact .inl (decide_eq_true begun)
  cases stamped : task.stamp with
  | none =>
    rw [keep, stamped]
    exact inv_send inv computing own inv.known exact_
  | some stamp =>
    rw [keep, stamped]
    refine inv_send inv computing own (fun changeId entry held => ?_) exact_
    by_cases same : changeId = task.changeId
    · subst same
      simp only [Function.update_self, Option.some.injEq] at held
      subst held
      exact ⟨follows.used stamp stamped,
        fun now => (follows.steady stamp stamped now).imp_right right⟩
    · rw [Function.update_of_ne same] at held
      exact inv.known changeId entry held

theorem inv_step {after : Worker π μ} (inv : worker.Inv repository)
    (step : Step repository worker after) : after.Inv repository := by
  cases step with
  | sends command other =>
    refine inv_aside inv (World.later_refl inv.stamped) ?_
    simp [other]
  | rewrites changeId commit =>
    exact inv_aside inv (World.later_rewrite inv.stamped changeId commit) rfl
  | saves changeId marks =>
    exact inv_aside inv (World.later_save inv.stamped changeId marks (Nat.succ_pos _)) rfl
  | savesOn marks under =>
    exact inv_aside inv (World.later_save inv.stamped _ marks under) rfl
  | stamps stamp under fresh =>
    exact inv_aside inv (World.later_stampMarks inv.stamped _ stamp _ fresh) rfl
  | skips idle first =>
    refine inv_aside inv (World.later_refl inv.stamped) ?_
    rw [first, List.count_cons_of_ne (by simp)]
  | failsToLoad idle first =>
    refine inv_aside inv (World.later_refl inv.stamped) ?_
    rw [first, List.count_cons_of_ne (by simp)]
  | starts lines idle first => exact inv_starts inv lines first
  | looksUp readable at_ => exact inv_looksUp inv readable at_
  | started at_ => exact inv_started inv at_
  | finds idle first none => exact inv_finds inv first none
  | takes readable idle first next => exact inv_takes inv readable idle first next
  | loads at_ => exact inv_loads inv at_
  | reads at_ => exact inv_reads inv at_
  | failsToRead reason at_ =>
    have own := inv.loadId
    rw [at_] at own
    exact inv_send inv (by rw [at_]; rfl) own inv.known (fun progress shown => by cases shown)
  | failsToCompare reason at_ =>
    have own := inv.loadId
    rw [at_] at own
    exact inv_send inv (by rw [at_]; rfl) own inv.known (fun progress shown => by cases shown)
  | computes at_ => exact inv_computes inv at_

theorem reachable_inv (reached : Reachable repository worker) : worker.Inv repository := by
  obtain ⟨first, begins, run⟩ := reached
  induction run with
  | refl => exact inv_begins begins
  | tail _ step inv => exact inv_step inv step

/-- However the worker's commands, the saves of other processes and the rewrites come between each
other, at most one command for the next revision is queued; every revision of the latest history
that was looked up has its share, or is to get it, once; every share that is sent is of that
history and, unless its marks were being saved, the share of its commit under these; and when no
command is left each revision has its share. -/
theorem reachable_shares (reached : Reachable repository worker) :
    worker.commands.count .revisionProgress ≤ 1 ∧
      (∃ known computed unknown looked, worker.Covers known computed unknown looked) ∧
      (∀ sent ∈ worker.found,
        sent.Exact repository ∧ some sent.loadId = worker.history.loadId) ∧
      (∀ changeId known, worker.history.known changeId = some known →
        known.Holds repository worker.world changeId) ∧
      (worker.phase = .idle → worker.commands.count .revisionProgress = 0 →
        (worker.sent.map Sent.changeId).Perm worker.asked) := by
  have inv := reachable_inv reached
  have queued := inv.queued
  refine ⟨?_, inv.covers, inv.exact_, inv.known, fun idle none => ?_⟩
  · split at queued <;> omega
  · have done : worker.history.revisions = [] := by
      by_contra left
      rw [none, inv.going idle left] at queued
      simp at queued
    obtain ⟨kept, computed, unknown, looked, covers⟩ := inv.covers
    have asked := covers.asked
    have found := covers.found
    have rest := covers.rest
    simp only [Worker.found, idle, Phase.left, Phase.computing, done, List.append_nil] at *
    rw [found, asked, rest]
    exact covers.all

/-- A history of one revision, a mark of which changes while its share is computed. -/
theorem reachable_shares_computed : ∃ worker : Worker Nat Bool,
    worker.sent.map Sent.result = [.ok 1] ∧ worker.sent.map Sent.unsettled = [true] ∧
      (worker.sent.map Sent.changeId).Perm ["z"] := by
  have first : Reachable ⟨fun _ => ["a", "b"], fun _ marks => marks.count true⟩
      (⟨⟨fun _ => "c", fun _ _ => false, fun _ => 0, fun _ => 0, fun _ => none, fun _ => [none]⟩,
        [], .empty, .idle, [], []⟩ : Worker Nat Bool) :=
    ⟨_, ⟨rfl, rfl, rfl, rfl, rfl, fun _ => by simp⟩, .refl⟩
  have sent := first.tail (.sends (.loadHistory 1) (by simp))
  have shown : rows [⟨some "z", some "c", true, false⟩] = [("z", some "c")] := by
    simp [rows, openRows]
  have starting := sent.tail (.starts [⟨some "z", some "c", true, false⟩] rfl rfl)
  rw [shown] at starting
  have started := (starting.tail (.looksUp true rfl)).tail (.started rfl)
  have read := ((started.tail (.takes true rfl rfl rfl)).tail (.loads rfl)).tail (.reads rfl)
  have saved := (read.tail (.saves "z" fun _ => true)).tail (.reads rfl)
  have computed := saved.tail (.computes rfl)
  exact ⟨_, rfl, rfl, (reachable_shares computed).2.2.2.2 rfl rfl⟩

end Worker

end ProgressiveReviewer.Selector
