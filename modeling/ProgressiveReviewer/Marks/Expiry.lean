import ProgressiveReviewer.Library.Runs
import ProgressiveReviewer.Marks.Tracker

/-! One process derives all statuses of a review while another marks the same review.
`statuses` reads every record, compares the baselines it found, and then removes the
records whose baseline is gone; it holds no lock, so the other process's writes land
anywhere in between. -/

namespace ProgressiveReviewer.Marks

open Library Hunks

/-- What changes the store of one review: a record file put in place, or one removed. -/
inductive Uses (unit : ReviewUnit) (store : MarkStore) : MarkStore → Prop
  | write (record : ReviewRecord) : Uses unit store (store.write unit record)
  | remove (path : RepoPath) : Uses unit store (store.remove unit path)

namespace ReviewTracker

variable (tracker : ReviewTracker) (snapshot : Snapshot) (file : ChangedFile) (now : String)

theorem uses_unreviewExpired (unit : ReviewUnit) (path : RepoPath) (reviewedAt : String) :
    Moves (Uses unit) (ReviewStore.unreviewExpired unit path reviewedAt) := by
  refine ReviewStore.moves_load.bind fun content => ?_
  cases content with
  | unreviewed => exact moves_pure _
  | unknownSchema => exact moves_pure _
  | reviewed record =>
    dsimp only
    split
    · exact ReviewStore.moves_unreview fun _ => .remove path
    · exact moves_pure _

theorem uses_compareRecord (content : LoadResult) :
    Moves (Uses snapshot.identity.reviewUnit) (tracker.compareRecord snapshot file content) := by
  cases content with
  | unreviewed => exact moves_pure _
  | unknownSchema => exact moves_pure _
  | reviewed record =>
    rw [compareRecord]
    split
    · exact moves_found _
    · refine (moves_found _).bind fun interdiff => ?_
      cases interdiff with
      | missingBaseline => exact (uses_unreviewExpired _ _ _).bind fun _ => moves_pure _
      | diff unified => exact moves_pure _

theorem uses_diff : Moves (Uses snapshot.identity.reviewUnit) (tracker.diff snapshot file) := by
  refine ReviewStore.moves_load.bind fun content => ?_
  refine (uses_compareRecord tracker snapshot file content).bind fun comparison => ?_
  cases comparison with
  | unreviewed warning =>
    exact (moves_found _).bind fun _ => (moves_found _).bind fun _ => (moves_found _).bind fun _ =>
      moves_pure _
  | compared baseline unified =>
    exact (moves_found _).bind fun _ => (moves_found _).bind fun _ => (moves_found _).bind fun _ =>
      moves_pure _
  | partially reviewed current unified hunks => exact moves_pure _

theorem uses_versions (diff : ReviewDiff) :
    Moves (Uses snapshot.identity.reviewUnit) (tracker.versions snapshot file diff) := by
  refine (moves_found _).bind fun base => Moves.bind ?_ fun _ => moves_pure _
  refine ReviewStore.moves_load.bind fun content => ?_
  cases content with
  | unreviewed => exact moves_pure _
  | unknownSchema => exact moves_throw _
  | reviewed record =>
    dsimp only
    split
    · exact moves_pure _
    · split
      · exact moves_pure _
      · exact moves_throw _

theorem uses_storeVersion (versions : Versions) (version : ReviewedVersion) :
    Moves (Uses snapshot.identity.reviewUnit)
      (storeVersion snapshot file now versions version) := by
  cases version with
  | current attribution =>
    rw [storeVersion]
    split
    · exact (ReviewStore.moves_storeMark fun _ => .write _).bind fun _ => moves_pure _
    · exact (ReviewStore.moves_storeMark fun _ => .write _).bind fun _ => moves_pure _
  | base => exact ReviewStore.moves_unreview fun _ => .remove _
  | partially reviewed =>
    exact (ReviewStore.moves_storeMark fun _ => .write _).bind fun _ => moves_pure _

theorem uses_edit (f : ReviewDiff → HunkReview → Except Error (Option ReviewedVersion)) :
    Moves (Uses snapshot.identity.reviewUnit) (tracker.edit snapshot file now f) := by
  refine (moves_found _).bind fun identity => ?_
  split
  · exact moves_pure _
  · refine (moves_found _).bind fun _ => (uses_diff tracker snapshot file).bind fun diff => ?_
    refine (uses_versions tracker snapshot file diff).bind fun versions => ?_
    refine (moves_found _).bind fun made => ?_
    cases made with
    | none => exact moves_pure _
    | some version => exact (uses_storeVersion _ _ _ _ _).bind fun _ => moves_pure _

/-- Whatever a process does to the marks of a review, it puts records in place and removes
records. -/
theorem uses_marks (selection : LineSelection) (author : MarkAuthor) :
    Moves (Uses snapshot.identity.reviewUnit) (tracker.mark snapshot file now author) ∧
      Moves (Uses snapshot.identity.reviewUnit)
        (tracker.acceptLines snapshot file now selection author) ∧
      Moves (Uses snapshot.identity.reviewUnit)
        (tracker.reopenLines snapshot file now selection) ∧
      Moves (Uses snapshot.identity.reviewUnit) (unreview snapshot file) := by
  refine ⟨?_, uses_edit _ _ _ _ _, uses_edit _ _ _ _ _,
    (moves_found _).bind fun _ => ReviewStore.moves_unreview fun _ => .remove _⟩
  refine (moves_found _).bind fun identity => ?_
  split
  · exact moves_pure _
  · next same =>
    refine (moves_found _).bind fun _ => Moves.bind ?_ fun _ => moves_pure _
    rw [not_not.mp same]
    exact ReviewStore.moves_storeMark fun _ => .write _

end ReviewTracker

/-- What `statuses` planned for one path. -/
structure PlannedPath where
  file : ChangedFile
  /-- The record file it read there. -/
  read : Option RecordFile
  /-- How many record files were written before. -/
  writes : Nat
  state : PlannedReviewState

/-- How far `statuses` is. -/
inductive Progress where
  | planning (planned : List PlannedPath) (plan : BaselineComparisonPlan)
      (rest : List ChangedFile)
  | resolving (results : SnapshotId → Option BaselineComparison) (states : List ReviewState)
      (rest : List PlannedPath)
  | ended (states : List ReviewState)
  | failed (error : Error)

/-- The paths that were read and not resolved yet. -/
def Progress.pending : Progress → List PlannedPath
  | planning planned _ _ => planned
  | resolving _ _ rest => rest
  | ended _ => []
  | failed _ => []

def Progress.over : Progress → Bool
  | ended _ | failed _ => true
  | _ => false

theorem pending_of_over {progress : Progress} (isOver : progress.over = true) :
    progress.pending = [] := by
  cases progress with
  | ended _ | failed _ => rfl
  | planning _ _ _ | resolving _ _ _ => cases isOver

namespace ReviewTracker

variable (tracker : ReviewTracker) (snapshot : Snapshot)

/-- Run `statuses` on up to its next use of the store. -/
def advance (store : MarkStore) : Progress → MarkStore × Progress
  | .planning planned plan (file :: rest) =>
    match tracker.planState snapshot file plan store with
    | .ok (state, plan) store' =>
      let read := store.files snapshot.identity.reviewUnit file.reviewPath
      (store', .planning (planned ++ [⟨file, read, store.writes, state⟩]) plan rest)
    | .error error store' => (store', .failed error)
  | .planning planned plan [] =>
    match tracker.repository.compareBaselines snapshot plan with
    | .ok results => (store, .resolving results [] planned)
    | .error error => (store, .failed error)
  | .resolving results states (path :: rest) =>
    match resolveState snapshot results path.file path.state store with
    | .ok state store' => (store', .resolving results (states ++ [state]) rest)
    | .error error store' => (store', .failed error)
  | .resolving _ states [] => (store, .ended states)
  | progress => (store, progress)

end ReviewTracker

/-- The store while `statuses` runs in one process, and what the other process alone
would have left in it. -/
structure Shared where
  store : MarkStore
  others : MarkStore
  progress : Progress
  /-- The paths whose records `statuses` removed. -/
  expired : List PlannedPath

/-- One use of the store: by `statuses`, or by the other process. -/
inductive Access where
  | statuses
  | write (record : ReviewRecord)
  | remove (path : RepoPath)

/-- The path that `statuses` finds without a baseline in its next use of the store. -/
def Progress.expiring : Progress → Option PlannedPath
  | resolving results _ (path :: _) =>
    match path.state with
    | .compare baseline =>
      match results baseline with
      | some .missing => some path
      | _ => none
    | .resolved _ => none
  | _ => none

namespace Shared

variable (tracker : ReviewTracker) (snapshot : Snapshot)

def start (store : MarkStore) : Shared where
  store := store
  others := store
  progress := .planning [] ∅ snapshot.files
  expired := []

def step (shared : Shared) : Access → Shared
  | .statuses =>
    let (store, progress) := tracker.advance snapshot shared.store shared.progress
    { shared with store, progress, expired := shared.expired ++ shared.progress.expiring.toList }
  | .write record =>
    { shared with
      store := shared.store.write snapshot.identity.reviewUnit record
      others := shared.others.write snapshot.identity.reviewUnit record }
  | .remove path =>
    { shared with
      store := shared.store.remove snapshot.identity.reviewUnit path
      others := shared.others.remove snapshot.identity.reviewUnit path }

end Shared

/-- Whether `statuses` may find the baseline that was planned for a path missing: it did
once it compared the baselines, and before that it can when some comparison does. -/
def Progress.MayExpire (tracker : ReviewTracker) (snapshot : Snapshot) (progress : Progress)
    (path : PlannedPath) : Prop :=
  ∃ baseline, path.state = .compare baseline ∧
    match progress with
    | .resolving results _ _ => results baseline = some .missing
    | _ => ∃ plan results, tracker.repository.compareBaselines snapshot plan = .ok results ∧
        results baseline = some .missing

/-- The other process does not write a record of a path that `statuses` has read and is
about to expire. -/
def ClearOf (tracker : ReviewTracker) (snapshot : Snapshot) (shared : Shared) : Access → Prop
  | .write record => ∀ path ∈ shared.progress.pending, path.file.reviewPath = record.path →
      ¬ shared.progress.MayExpire tracker snapshot path
  | _ => True

/-! What one advance does. -/

/-- A path to compare has a whole-file mark at the baseline it is compared with. -/
def PlannedPath.Whole (path : PlannedPath) : Prop :=
  ∀ baseline, path.state = .compare baseline → ∃ file record, path.read = some file ∧
    file.content = .reviewed record ∧ record.partialReview = none ∧
    record.baselineCommitId = baseline

section Advance

variable {tracker : ReviewTracker} {snapshot : Snapshot} {store : MarkStore} {progress : Progress}

theorem planRecord_compare {file : ChangedFile} {content : LoadResult} {baseline : SnapshotId}
    (planned : tracker.planRecord snapshot file content = .ok (.compare baseline)) :
    ∃ record, content = .reviewed record ∧ record.partialReview = none ∧
      record.baselineCommitId = baseline := by
  cases content with
  | unreviewed => cases planned
  | unknownSchema => cases planned
  | reviewed record =>
    cases whole : record.partialReview with
    | none =>
      simp only [ReviewTracker.planRecord, whole] at planned
      cases planned
      exact ⟨record, rfl, whole, rfl⟩
    | some review =>
      simp only [ReviewTracker.planRecord, whole] at planned
      cases compared : tracker.comparePartial snapshot file review record.baselineCommitId <;>
        simp [compared, Except.map] at planned

theorem stateOf_planState (file : ChangedFile) (plan : BaselineComparisonPlan) :
    stateOf (tracker.planState snapshot file plan store) = store :=
  (ReviewStore.moves_load.bind fun _ => (moves_found _).bind fun _ => moves_pure _).stays store

theorem planState_eq_ok {file : ChangedFile} {plan plan' : BaselineComparisonPlan}
    {state : PlannedReviewState} {store' : MarkStore}
    (planned : tracker.planState snapshot file plan store = .ok (state, plan') store') :
    tracker.planRecord snapshot file (store.content snapshot.identity.reviewUnit file.reviewPath) =
      .ok state := by
  simp only [ReviewTracker.planState, ReviewTracker.loadRecord, bind_eq_ok, found_eq_ok,
    ReviewStore.load_eq_ok] at planned
  obtain ⟨_, _, ⟨_, _, rfl, rfl⟩, _, _, ⟨found, _⟩, returned⟩ := planned
  cases returned
  exact found

/-- What `statuses` did with one use of the store. -/
inductive Advances (tracker : ReviewTracker) (snapshot : Snapshot) (store : MarkStore) :
    Progress → MarkStore → Progress → Prop
  | read {planned plan rest} (path plan')
      (read : path.read = store.files snapshot.identity.reviewUnit path.file.reviewPath)
      (writes : path.writes = store.writes) (whole : path.Whole) :
      Advances tracker snapshot store (.planning planned plan (path.file :: rest)) store
        (.planning (planned ++ [path]) plan' rest)
  | compare {planned plan} (results)
      (compared : tracker.repository.compareBaselines snapshot plan = .ok results) :
      Advances tracker snapshot store (.planning planned plan []) store
        (.resolving results [] planned)
  | keep {results states path rest} (state) :
      Advances tracker snapshot store (.resolving results states (path :: rest)) store
        (.resolving results (states ++ [state]) rest)
  | expire {results states path rest} (state)
      (missing : (Progress.resolving results states (path :: rest)).expiring = some path) :
      Advances tracker snapshot store (.resolving results states (path :: rest))
        (store.remove snapshot.identity.reviewUnit path.file.reviewPath)
        (.resolving results (states ++ [state]) rest)
  | stop {progress : Progress} (stopped : Progress) (isOver : stopped.over = true) :
      Advances tracker snapshot store progress store stopped

theorem advances_planning (planned : List PlannedPath) (plan : BaselineComparisonPlan)
    (file : ChangedFile) (rest : List ChangedFile) :
    Advances tracker snapshot store (.planning planned plan (file :: rest))
      (tracker.advance snapshot store (.planning planned plan (file :: rest))).1
      (tracker.advance snapshot store (.planning planned plan (file :: rest))).2 := by
  have stays : stateOf (tracker.planState snapshot file plan store) = store :=
    stateOf_planState file plan
  simp only [ReviewTracker.advance]
  cases run : tracker.planState snapshot file plan store with
  | error error store' =>
    rw [run] at stays
    obtain rfl : store = store' := stays.symm
    exact .stop _ rfl
  | ok result store' =>
    obtain ⟨state, plan'⟩ := result
    rw [run] at stays
    obtain rfl : store = store' := stays.symm
    refine .read ⟨file, _, _, state⟩ plan' rfl rfl ?_
    intro baseline compares
    have planned := planState_eq_ok run
    rw [show state = .compare baseline from compares] at planned
    obtain ⟨record, content, whole, same⟩ := planRecord_compare planned
    rw [MarkStore.content] at content
    cases found : store.files snapshot.identity.reviewUnit file.reviewPath with
    | none => simp [found] at content
    | some recordFile => exact ⟨recordFile, record, rfl, by simpa [found] using content, whole, same⟩

theorem advances_resolving (results : SnapshotId → Option BaselineComparison)
    (states : List ReviewState) (path : PlannedPath) (rest : List PlannedPath) :
    Advances tracker snapshot store (.resolving results states (path :: rest))
      (tracker.advance snapshot store (.resolving results states (path :: rest))).1
      (tracker.advance snapshot store (.resolving results states (path :: rest))).2 := by
  simp only [ReviewTracker.advance]
  cases planned : path.state with
  | resolved state => exact .keep state
  | compare baseline =>
    cases found : results baseline with
    | none =>
      simp only [ReviewTracker.resolveState, found]
      exact .stop _ rfl
    | some comparison =>
      cases comparison with
      | compared pathStatistics =>
        simp only [ReviewTracker.resolveState, found]
        exact .keep _
      | missing =>
        have expiring : (Progress.resolving results states (path :: rest)).expiring = some path := by
          simp [Progress.expiring, planned, found]
        simp only [ReviewTracker.resolveState, found]
        cases unit : validateReviewUnit snapshot.identity.reviewUnit with
        | error error =>
          simp only [ReviewStore.unreview, unit]
          exact .stop _ rfl
        | ok _ =>
          cases valid : validatePath path.file.reviewPath with
          | error error =>
            simp only [ReviewStore.unreview, unit, valid]
            exact .stop _ rfl
          | ok _ =>
            have removed : ReviewStore.unreview snapshot.identity.reviewUnit path.file.reviewPath
                store = .ok () _ := ReviewStore.unreview_eq_ok.mpr ⟨unit, valid, rfl⟩
            rw [bind_ok removed]
            exact .expire _ expiring

theorem advances : Advances tracker snapshot store progress
    (tracker.advance snapshot store progress).1 (tracker.advance snapshot store progress).2 := by
  cases progress with
  | planning planned plan rest =>
    cases rest with
    | cons file rest => exact advances_planning planned plan file rest
    | nil =>
      simp only [ReviewTracker.advance]
      cases compared : tracker.repository.compareBaselines snapshot plan with
      | ok results => exact .compare results compared
      | error error => exact .stop _ rfl
  | resolving results states rest =>
    cases rest with
    | cons path rest => exact advances_resolving results states path rest
    | nil => exact .stop _ rfl
  | ended states => exact .stop _ rfl
  | failed error => exact .stop _ rfl

theorem expiring_eq_some {path : PlannedPath} (expiring : progress.expiring = some path) :
    path ∈ progress.pending ∧ ∃ results states rest baseline,
      progress = .resolving results states rest ∧ path.state = .compare baseline ∧
        results baseline = some .missing := by
  cases progress with
  | planning planned plan rest => cases expiring
  | ended states => cases expiring
  | failed error => cases expiring
  | resolving results states rest =>
    cases rest with
    | nil => cases expiring
    | cons first rest =>
      simp only [Progress.expiring] at expiring
      split at expiring
      · next baseline planned =>
        split at expiring
        · next missing =>
          cases expiring
          exact ⟨List.mem_cons_self, results, states, _, baseline, rfl, planned, missing⟩
        · cases expiring
      · cases expiring

end Advance

/-- The comparison that `statuses` ran found the path's baseline missing. -/
def PlannedPath.Gone (tracker : ReviewTracker) (snapshot : Snapshot) (path : PlannedPath) : Prop :=
  ∃ baseline plan results, path.state = .compare baseline ∧
    tracker.repository.compareBaselines snapshot plan = .ok results ∧
    results baseline = some .missing

/-- A path keeps what was read there: a whole-file mark, written before it was read. -/
structure PlannedPath.Known (path : PlannedPath) (writes : Nat) : Prop where
  whole : path.Whole
  writes_le : path.writes ≤ writes
  before : ∀ file, path.read = some file → file.written < path.writes

namespace Shared

variable {tracker : ReviewTracker} {snapshot : Snapshot}

/-- What holds while no write lands on a path that is about to expire: the store is what
the other process left, less the very records that were examined. -/
structure Inv (tracker : ReviewTracker) (snapshot : Snapshot) (shared : Shared) : Prop where
  counted : shared.store.writes = shared.others.writes
  within : ∀ path file, shared.store.files snapshot.identity.reviewUnit path = some file →
    shared.others.files snapshot.identity.reviewUnit path = some file
  kept : ∀ path file, shared.others.files snapshot.identity.reviewUnit path = some file →
    shared.store.files snapshot.identity.reviewUnit path = some file ∨
      ∃ planned ∈ shared.expired, planned.file.reviewPath = path ∧ planned.read = some file
  pending : ∀ path ∈ shared.progress.pending, path.Known shared.store.writes
  expired : ∀ path ∈ shared.expired, path.Known shared.store.writes ∧ path.Gone tracker snapshot
  still : ∀ path ∈ shared.progress.pending, shared.progress.MayExpire tracker snapshot path →
    ∀ file, shared.others.files snapshot.identity.reviewUnit path.file.reviewPath = some file →
      path.read = some file
  compared : ∀ results states rest, shared.progress = .resolving results states rest →
    ∃ plan, tracker.repository.compareBaselines snapshot plan = .ok results

theorem inv_start (store : MarkStore) : Inv tracker snapshot (start snapshot store) where
  counted := rfl
  within := fun _ _ found => found
  kept := fun _ _ found => Or.inl found
  pending := fun _ mem => absurd mem List.not_mem_nil
  expired := fun _ mem => absurd mem List.not_mem_nil
  still := fun _ mem => absurd mem List.not_mem_nil
  compared := fun _ _ _ planning => by cases planning

theorem expired_advance {shared : Shared} (inv : Inv tracker snapshot shared) :
    ∀ path ∈ shared.expired ++ shared.progress.expiring.toList,
      path.Known shared.store.writes ∧ path.Gone tracker snapshot := by
  intro path mem
  rcases List.mem_append.mp mem with before | now
  · exact inv.expired path before
  · obtain ⟨member, results, states, rest, baseline, progress, planned, missing⟩ :=
      expiring_eq_some (Option.mem_toList.mp now)
    obtain ⟨plan, compared⟩ := inv.compared results states rest progress
    exact ⟨inv.pending path member, baseline, plan, results, planned, compared, missing⟩

section Advance

variable {store others : MarkStore} {progress : Progress} {expired : List PlannedPath}

theorem kept_advance (inv : Inv tracker snapshot ⟨store, others, progress, expired⟩)
    {path : RepoPath} {file : RecordFile}
    (found : others.files snapshot.identity.reviewUnit path = some file) :
    store.files snapshot.identity.reviewUnit path = some file ∨
      ∃ planned ∈ expired ++ progress.expiring.toList,
        planned.file.reviewPath = path ∧ planned.read = some file := by
  refine (inv.kept path file found).imp_right ?_
  rintro ⟨planned, mem, facts⟩
  exact ⟨planned, List.mem_append_left _ mem, facts⟩

theorem inv_read {planned : List PlannedPath} {plan plan' : BaselineComparisonPlan}
    {rest : List ChangedFile} {path : PlannedPath}
    (inv : Inv tracker snapshot ⟨store, others, .planning planned plan (path.file :: rest), expired⟩)
    (read : path.read = store.files snapshot.identity.reviewUnit path.file.reviewPath)
    (writes : path.writes = store.writes) (whole : path.Whole) :
    Inv tracker snapshot ⟨store, others, .planning (planned ++ [path]) plan' rest, expired⟩ where
  counted := inv.counted
  within := inv.within
  kept := inv.kept
  expired := inv.expired
  compared := fun _ _ _ planning => by cases planning
  pending := by
    intro entry mem
    rcases List.mem_append.mp mem with before | fresh
    · exact inv.pending entry before
    · rw [List.mem_singleton.mp fresh]
      refine ⟨whole, Nat.le_of_eq writes, fun file found => ?_⟩
      rw [read] at found
      rw [writes]
      exact store.numbered _ _ _ found
  still := by
    intro entry mem may file found
    rcases List.mem_append.mp mem with before | fresh
    · exact inv.still entry before may file found
    · rw [List.mem_singleton.mp fresh] at may found ⊢
      obtain ⟨baseline, compares, _⟩ := may
      obtain ⟨seen, _, sees, _⟩ := whole baseline compares
      have same := inv.within path.file.reviewPath seen (by rw [← read, sees])
      rw [sees, ← found]
      exact same.symm

theorem inv_compare {planned : List PlannedPath} {plan : BaselineComparisonPlan}
    {results : SnapshotId → Option BaselineComparison}
    (inv : Inv tracker snapshot ⟨store, others, .planning planned plan [], expired⟩)
    (compared : tracker.repository.compareBaselines snapshot plan = .ok results) :
    Inv tracker snapshot ⟨store, others, .resolving results [] planned, expired⟩ where
  counted := inv.counted
  within := inv.within
  kept := inv.kept
  expired := inv.expired
  pending := inv.pending
  still := by
    rintro path mem ⟨baseline, compares, missing⟩
    exact inv.still path mem ⟨baseline, compares, plan, results, compared, missing⟩
  compared := by
    intro _ _ _ same
    cases same
    exact ⟨plan, compared⟩

section Resolve

variable {results : SnapshotId → Option BaselineComparison} {states states' : List ReviewState}
  {path : PlannedPath} {rest : List PlannedPath}

theorem inv_keep
    (inv : Inv tracker snapshot ⟨store, others, .resolving results states (path :: rest), expired⟩) :
    Inv tracker snapshot ⟨store, others, .resolving results states' rest, expired⟩ where
  counted := inv.counted
  within := inv.within
  kept := inv.kept
  expired := inv.expired
  pending := fun entry mem => inv.pending entry (List.mem_cons_of_mem path mem)
  still := fun entry mem => inv.still entry (List.mem_cons_of_mem path mem)
  compared := by
    intro _ _ _ same
    cases same
    exact inv.compared results states (path :: rest) rfl

/-- The record removed is the one that was read. -/
theorem inv_expire
    (inv : Inv tracker snapshot ⟨store, others, .resolving results states (path :: rest), expired⟩)
    (listed : path ∈ expired)
    (missing : (Progress.resolving results states (path :: rest)).expiring = some path) :
    Inv tracker snapshot ⟨store.remove snapshot.identity.reviewUnit path.file.reviewPath, others,
      .resolving results states' rest, expired⟩ where
  counted := inv.counted
  within := by
    intro other file found
    simp only [MarkStore.files_remove] at found
    split at found
    · cases found
    · exact inv.within other file found
  kept := by
    intro other file found
    simp only [MarkStore.files_remove]
    split
    · next same =>
      obtain ⟨mem, _, _, _, baseline, eq, compares, isMissing⟩ := expiring_eq_some missing
      cases eq
      rw [same] at found
      exact Or.inr ⟨path, listed, same.symm,
        inv.still path mem ⟨baseline, compares, isMissing⟩ file found⟩
    · exact inv.kept other file found
  expired := inv.expired
  pending := fun entry mem => inv.pending entry (List.mem_cons_of_mem path mem)
  still := fun entry mem => inv.still entry (List.mem_cons_of_mem path mem)
  compared := by
    intro _ _ _ same
    cases same
    exact inv.compared results states (path :: rest) rfl

end Resolve

theorem inv_stop {stopped : Progress} (isOver : stopped.over = true)
    (inv : Inv tracker snapshot ⟨store, others, progress, expired⟩) :
    Inv tracker snapshot ⟨store, others, stopped, expired⟩ where
  counted := inv.counted
  within := inv.within
  kept := inv.kept
  expired := inv.expired
  pending := by simp [pending_of_over isOver]
  still := by simp [pending_of_over isOver]
  compared := by
    rintro _ _ _ rfl
    cases isOver

/-- The paths that expire now join those that did. -/
theorem inv_list (inv : Inv tracker snapshot ⟨store, others, progress, expired⟩) :
    Inv tracker snapshot ⟨store, others, progress, expired ++ progress.expiring.toList⟩ where
  counted := inv.counted
  within := inv.within
  kept := fun _ _ found => kept_advance inv found
  pending := inv.pending
  expired := expired_advance inv
  still := inv.still
  compared := inv.compared

theorem inv_advance {store' : MarkStore} {progress' : Progress}
    (inv : Inv tracker snapshot ⟨store, others, progress, expired⟩)
    (advances : Advances tracker snapshot store progress store' progress') :
    Inv tracker snapshot ⟨store', others, progress', expired ++ progress.expiring.toList⟩ := by
  have listed := inv_list inv
  cases advances with
  | read path plan' read writes whole => exact inv_read listed read writes whole
  | compare results compared => exact inv_compare listed compared
  | keep state => exact inv_keep listed
  | expire state missing =>
    refine inv_expire listed ?_ missing
    exact List.mem_append_right _ (Option.mem_toList.mpr missing)
  | stop stopped isOver => exact inv_stop isOver listed

end Advance

theorem inv_write {shared : Shared} {record : ReviewRecord} (inv : Inv tracker snapshot shared)
    (clear : ClearOf tracker snapshot shared (.write record)) :
    Inv tracker snapshot (shared.step tracker snapshot (.write record)) where
  counted := congrArg (· + 1) inv.counted
  within := by
    intro path file found
    simp only [step, MarkStore.files_write] at found ⊢
    split at found
    · next same => rw [if_pos same, ← inv.counted, found]
    · next other => rw [if_neg other, inv.within path file found]
  kept := by
    intro path file found
    simp only [step, MarkStore.files_write] at found ⊢
    split at found
    · next same => exact Or.inl (by rw [if_pos same, inv.counted, found])
    · next other =>
      rw [if_neg other]
      exact inv.kept path file found
  pending := fun path mem =>
    let known := inv.pending path mem
    ⟨known.whole, Nat.le_succ_of_le known.writes_le, known.before⟩
  expired := fun path mem =>
    let known := (inv.expired path mem).1
    ⟨⟨known.whole, Nat.le_succ_of_le known.writes_le, known.before⟩, (inv.expired path mem).2⟩
  still := by
    intro path mem may file found
    simp only [step, MarkStore.files_write] at found
    split at found
    · next same => exact absurd may (clear path mem same)
    · exact inv.still path mem may file found
  compared := inv.compared

theorem inv_remove {shared : Shared} {path : RepoPath} (inv : Inv tracker snapshot shared) :
    Inv tracker snapshot (shared.step tracker snapshot (.remove path)) where
  counted := inv.counted
  within := by
    intro other file found
    simp only [step, MarkStore.files_remove] at found ⊢
    split at found
    · cases found
    · next differs => rw [if_neg differs, inv.within other file found]
  kept := by
    intro other file found
    simp only [step, MarkStore.files_remove] at found ⊢
    split at found
    · cases found
    · next differs =>
      rw [if_neg differs]
      exact inv.kept other file found
  pending := inv.pending
  expired := inv.expired
  still := by
    intro entry mem may file found
    simp only [step, MarkStore.files_remove] at found
    split at found
    · cases found
    · exact inv.still entry mem may file found
  compared := inv.compared

/-! `statuses` alone takes its steps in order. -/

variable (tracker snapshot) in
/-- What `statuses` does when no other process uses the store. -/
def Alone : MarkStore × Progress → MarkStore × Progress → Prop :=
  Relation.ReflTransGen fun before after => after = tracker.advance snapshot before.1 before.2

theorem alone_planning {files : List ChangedFile} {store store' : MarkStore}
    {plan plan' : BaselineComparisonPlan} {states : List PlannedReviewState}
    (planned : tracker.planStates snapshot files plan store = .ok (states, plan') store')
    (before : List PlannedPath) :
    store' = store ∧ ∃ paths : List PlannedPath,
      paths.map (fun path => (path.file, path.state)) = files.zip states ∧
      Alone tracker snapshot (store, .planning before plan files)
        (store, .planning (before ++ paths) plan' []) := by
  induction files generalizing plan states before store with
  | nil =>
    cases planned
    exact ⟨rfl, [], rfl, by rw [List.append_nil]; exact .refl⟩
  | cons file files ih =>
    simp only [ReviewTracker.planStates, bind_eq_ok] at planned
    obtain ⟨⟨state, between⟩, store₁, first, ⟨rest, _⟩, _, others, returned⟩ := planned
    cases returned
    have stays : stateOf (tracker.planState snapshot file plan store) = store :=
      stateOf_planState file plan
    rw [first] at stays
    obtain rfl : store = store₁ := stays.symm
    obtain ⟨same, paths, listed, run⟩ := ih others
      (before ++ [⟨file, store.files snapshot.identity.reviewUnit file.reviewPath, store.writes, state⟩])
    rw [List.append_assoc] at run
    refine ⟨same, _ :: paths, ?_, .head ?_ run⟩
    · simpa using listed
    · simp only [ReviewTracker.advance, first]

theorem alone_resolving {results : SnapshotId → Option BaselineComparison}
    {paths : List PlannedPath} {store store' : MarkStore} {states : List ReviewState}
    (resolved : ReviewTracker.resolveStates snapshot results
      (paths.map fun path => (path.file, path.state)) store = .ok states store')
    (before : List ReviewState) :
    Alone tracker snapshot (store, .resolving results before paths)
      (store', .resolving results (before ++ states) []) := by
  induction paths generalizing before states store with
  | nil =>
    cases resolved
    rw [List.append_nil]
    exact .refl
  | cons path paths ih =>
    simp only [List.map_cons, ReviewTracker.resolveStates, bind_eq_ok] at resolved
    obtain ⟨state, store₁, first, rest, _, others, returned⟩ := resolved
    cases returned
    have run := ih others (before ++ [state])
    rw [List.append_assoc] at run
    refine .head ?_ run
    simp only [ReviewTracker.advance, first]

/-- The steps of `statuses` are those of the code: run without another process, they
return what it returns and leave the store it leaves. -/
theorem alone_statuses {store store' : MarkStore} {states : List ReviewState}
    (derived : tracker.statuses snapshot store = .ok states store') :
    Alone tracker snapshot (store, (start snapshot store).progress) (store', .ended states) := by
  simp only [ReviewTracker.statuses, bind_eq_ok, found_eq_ok] at derived
  obtain ⟨⟨plans, plan⟩, store₁, planned, results, _, ⟨compared, rfl⟩, resolved⟩ := derived
  obtain ⟨rfl, paths, listed, planning⟩ := alone_planning planned []
  rw [← listed] at resolved
  refine planning.trans (.head ?_ ((alone_resolving resolved []).tail ?_))
  · simp only [ReviewTracker.advance, compared, List.nil_append]
  · simp only [ReviewTracker.advance, List.nil_append]

theorem inv_step (shared : Shared) (access : Access) (inv : Inv tracker snapshot shared)
    (clear : ClearOf tracker snapshot shared access) :
    Inv tracker snapshot (shared.step tracker snapshot access) := by
  cases access with
  | statuses => exact inv_advance inv advances
  | write record => exact inv_write inv clear
  | remove path => exact inv_remove inv

/-- Statuses removes only records it examined: in every run where no record is written at a path
between the read of its whole-file record and its removal for a missing baseline, the store
holds what the other process left there, less the very records read whose baseline was found
missing; a record written since it was read is among those left. -/
theorem expiry_removes_examined {store : MarkStore} {shared : Shared}
    (reached : Reaches (step tracker snapshot) (ClearOf tracker snapshot) (start snapshot store) shared)
    {path : RepoPath} {file : RecordFile}
    (left : shared.others.files snapshot.identity.reviewUnit path = some file) :
    ((∀ planned ∈ shared.expired, planned.file.reviewPath = path → planned.writes ≤ file.written) →
      shared.store.files snapshot.identity.reviewUnit path = some file) ∧
    (shared.store.files snapshot.identity.reviewUnit path = some file ∨
      ∃ planned ∈ shared.expired, planned.file.reviewPath = path ∧ planned.read = some file ∧
        file.written < planned.writes ∧
        ∃ record plan results, file.content = .reviewed record ∧
          tracker.repository.compareBaselines snapshot plan = .ok results ∧
          results record.baselineCommitId = some .missing) := by
  have inv := reached.invariant (inv_start store) inv_step
  rcases inv.kept path file left with kept | ⟨planned, mem, same, read⟩
  · exact ⟨fun _ => kept, Or.inl kept⟩
  · obtain ⟨known, baseline, plan, results, compares, compared, missing⟩ := inv.expired planned mem
    obtain ⟨_, record, sees, content, _, rfl⟩ := known.whole baseline compares
    cases read.symm.trans sees
    have older := known.before file read
    refine ⟨fun newer => absurd older (Nat.not_lt.mpr (newer planned mem same)), Or.inr ?_⟩
    exact ⟨planned, mem, same, read, older, record, plan, results, content, compared, missing⟩

/-! One reviewed file whose baseline is gone, for the runs below. -/

def lostBaseline : ReviewTracker where
  differ := trimmedDiffer
  repository :=
    { currentIdentity := .ok (.git "ba" "5e")
      diff := fun _ _ => .ok []
      fileAt := fun _ _ => .ok []
      baseFileAt := fun _ _ => .ok []
      interdiff := fun baseline _ _ => .ok (if baseline = "01" then .missingBaseline else .diff [])
      compareBaselines := fun _ _ => .ok fun baseline =>
        some (if baseline = "01" then .missing else .compared fun _ => none)
      parseFileDiff := fun _ _ => [] }

def lostFile : ChangedFile := ⟨some [102], some [102], .file, .file, .zero, rfl⟩

def lostSnapshot : Snapshot := ⟨.git "ba" "5e", [lostFile]⟩

/-- The mark that expires, and the one the other process writes. -/
def lostMark : ReviewRecord := ⟨[102], "01", "then", .reviewer, none⟩
def newMark : ReviewRecord := ⟨[102], "5e", "now", .reviewer, none⟩

def lostStore : MarkStore := MarkStore.empty.write "ba" lostMark

/-- The other process marks the file again between the read of the old mark and its removal:
`statuses` removes the new mark, whose baseline exists. -/
theorem expiry_loses_new_mark :
    let run := [.statuses, .write newMark, .statuses, .statuses, .statuses].foldl
      (step lostBaseline lostSnapshot) (start lostSnapshot lostStore)
    lostBaseline.mark lostSnapshot lostFile "now" .reviewer lostStore =
        .ok .marked (lostStore.write "ba" newMark) ∧
      run.progress = .ended [.unreviewed .zero (some .baselineExpired)] ∧
      run.others.files "ba" [102] = some ⟨1, .reviewed newMark⟩ ∧
      run.store.files "ba" [102] = none ∧
      ∀ planned ∈ run.expired, planned.writes ≤ 1 := by
  refine ⟨rfl, rfl, rfl, rfl, ?_⟩
  intro planned mem
  cases List.mem_singleton.mp mem
  exact Nat.le_refl _

/-- A mark of another file, written meanwhile, stays. -/
theorem expiry_removes_examined_beside_other :
    let other : ReviewRecord := ⟨[103], "5e", "now", .reviewer, none⟩
    let run := [.statuses, .write other, .statuses, .statuses].foldl
      (step lostBaseline lostSnapshot) (start lostSnapshot lostStore)
    run.store.files "ba" [103] = some ⟨1, .reviewed other⟩ := by
  intro other run
  have clear : AllAllowed (step lostBaseline lostSnapshot) (ClearOf lostBaseline lostSnapshot)
      (start lostSnapshot lostStore) [.statuses, .write other, .statuses, .statuses] := by
    refine ⟨trivial, ?_, trivial, trivial, trivial⟩
    intro planned mem same
    cases List.mem_singleton.mp mem
    cases same
  refine (expiry_removes_examined (Reaches.start.foldl clear) rfl).1 ?_
  intro planned mem same
  cases List.mem_singleton.mp mem
  cases same

end Shared

end ProgressiveReviewer.Marks
