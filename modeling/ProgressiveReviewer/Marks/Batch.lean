import Mathlib.Data.List.Forall2
import ProgressiveReviewer.Marks.Git
import ProgressiveReviewer.Marks.Tracker

/-! The statuses of a review in one batch, beside the status of one file
(`review-state/src/review.rs`). -/

namespace ProgressiveReviewer.Marks

open Library Hunks

/-- The baseline of a whole-file mark. -/
def wholeBaseline (store : MarkStore) (unit : ReviewUnit) (path : RepoPath) : Option SnapshotId :=
  match store.content unit path with
  | .reviewed record =>
    if record.partialReview.isNone then some record.baselineCommitId else none
  | _ => none

/-- The status of a file with a whole-file mark, by its own comparison. -/
def Interdiff.status : Interdiff → ReviewStatus
  | .missingBaseline => .unreviewed
  | .diff unified => if unified = [] then .reviewed else .changedSinceReview

namespace ReviewTracker

variable {tracker : ReviewTracker} {snapshot : Snapshot} {store after : MarkStore}
variable {file : ChangedFile}

/-- A file is planned for a comparison by its whole-file mark, and has its own state else. -/
theorem planRecord_eq_ok {state : PlannedReviewState}
    (planned : tracker.planRecord snapshot file
      (store.content snapshot.identity.reviewUnit file.reviewPath) = .ok state) :
    match wholeBaseline store snapshot.identity.reviewUnit file.reviewPath with
    | some baseline => state = .compare baseline
    | none => ∃ comparison, tracker.compareRecord snapshot file
        (store.content snapshot.identity.reviewUnit file.reviewPath) store = .ok comparison store ∧
        state = .resolved (comparison.state file) := by
  unfold wholeBaseline
  cases content : store.content snapshot.identity.reviewUnit file.reviewPath with
  | unreviewed =>
    rw [content] at planned
    cases planned
    exact ⟨_, rfl, rfl⟩
  | unknownSchema =>
    rw [content] at planned
    cases planned
    exact ⟨_, rfl, rfl⟩
  | reviewed record =>
    rw [content] at planned
    cases covers : record.partialReview with
    | none =>
      simp only [planRecord, covers] at planned
      cases planned
      simp [covers]
    | some review =>
      simp only [planRecord, covers] at planned
      obtain ⟨comparison, compared, rfl⟩ := except_map_eq_ok.mp planned
      simp only [covers, Option.isNone_some, Bool.false_eq_true, if_false]
      refine ⟨comparison, ?_, rfl⟩
      simp [compareRecord, covers, compared]

theorem mem_planned {state : PlannedReviewState} {entry : SnapshotId × RepoPath}
    (resolved : tracker.planRecord snapshot file
      (store.content snapshot.identity.reviewUnit file.reviewPath) = .ok state) :
    entry ∈ planned file state ↔ file.reviewPath = entry.2 ∧
      wholeBaseline store snapshot.identity.reviewUnit file.reviewPath = some entry.1 := by
  have kind := planRecord_eq_ok resolved
  cases whole : wholeBaseline store snapshot.identity.reviewUnit file.reviewPath with
  | some baseline =>
    rw [whole] at kind
    subst kind
    simp [planned, Prod.ext_iff, and_comm, eq_comm]
  | none =>
    rw [whole] at kind
    obtain ⟨_, _, rfl⟩ := kind
    simp [planned]

theorem planStates_eq_ok {files : List ChangedFile} {plan plan' : BaselineComparisonPlan}
    {states : List PlannedReviewState}
    (ran : tracker.planStates snapshot files plan store = .ok (states, plan') after) :
    after = store ∧ List.Forall₂ (fun file state => tracker.planRecord snapshot file
        (store.content snapshot.identity.reviewUnit file.reviewPath) = .ok state) files states ∧
      ∀ entry, entry ∈ plan' ↔ entry ∈ plan ∨ ∃ file ∈ files, file.reviewPath = entry.2 ∧
        wholeBaseline store snapshot.identity.reviewUnit file.reviewPath = some entry.1 := by
  induction files generalizing plan plan' states with
  | nil =>
    cases ran
    exact ⟨rfl, .nil, fun _ => by simp⟩
  | cons file files ih =>
    obtain ⟨⟨state, extended⟩, _, first, others⟩ := bind_eq_ok.mp ran
    obtain ⟨⟨rest, whole⟩, _, more, returned⟩ := bind_eq_ok.mp others
    cases returned
    obtain ⟨record, _, loaded, found⟩ := bind_eq_ok.mp first
    obtain ⟨_, _, rfl, rfl⟩ := ReviewStore.load_eq_ok.mp loaded
    obtain ⟨own, _, looked, last⟩ := bind_eq_ok.mp found
    obtain ⟨resolved, rfl⟩ := found_eq_ok.mp looked
    cases last
    obtain ⟨rfl, states, entries⟩ := ih more
    refine ⟨rfl, .cons resolved states, fun entry => ?_⟩
    simp only [entries, Finset.mem_union, mem_planned resolved, List.mem_cons, exists_eq_or_imp,
      or_assoc]

theorem resolveStates_eq_ok {results : SnapshotId → Option BaselineComparison}
    {planned : List (ChangedFile × PlannedReviewState)} {states : List ReviewState}
    (ran : resolveStates snapshot results planned store = .ok states after) :
    List.Forall₂ (fun planned state => match planned.2 with
      | .resolved own => state = own
      | .compare baseline => ∃ comparison, results baseline = some comparison ∧
          state = comparedState planned.1 comparison) planned states := by
  induction planned generalizing store states with
  | nil =>
    cases ran
    exact .nil
  | cons entry rest ih =>
    obtain ⟨file, state⟩ := entry
    obtain ⟨resolved, _, first, rest⟩ := bind_eq_ok.mp ran
    obtain ⟨more, _, others, returned⟩ := bind_eq_ok.mp rest
    cases returned
    refine .cons ?_ (ih others)
    cases state with
    | resolved own =>
      cases first
      rfl
    | compare baseline =>
      cases known : results baseline with
      | none =>
        simp only [resolveState, known] at first
        cases first
      | some comparison =>
        refine ⟨comparison, known, ?_⟩
        cases comparison with
        | missing =>
          simp only [resolveState, known] at first
          obtain ⟨_, _, _, returned⟩ := bind_eq_ok.mp first
          cases returned
          rfl
        | compared statistics =>
          simp only [resolveState, known] at first
          cases first
          rfl

/-- What the batch gives each file. -/
theorem statuses_eq_ok {states : List ReviewState}
    (ran : tracker.statuses snapshot store = .ok states after) : ∃ plan results,
    tracker.repository.compareBaselines snapshot plan = .ok results ∧
    (∀ entry, entry ∈ plan ↔ ∃ file ∈ snapshot.files, file.reviewPath = entry.2 ∧
      wholeBaseline store snapshot.identity.reviewUnit file.reviewPath = some entry.1) ∧
    List.Forall₂ (fun file state =>
      match wholeBaseline store snapshot.identity.reviewUnit file.reviewPath with
      | some baseline => ∃ comparison, results baseline = some comparison ∧
          state = comparedState file comparison
      | none => ∃ comparison, tracker.compareRecord snapshot file
          (store.content snapshot.identity.reviewUnit file.reviewPath) store = .ok comparison store ∧
          state = comparison.state file) snapshot.files states := by
  obtain ⟨⟨planned, plan⟩, _, first, rest⟩ := bind_eq_ok.mp ran
  obtain ⟨results, _, looked, last⟩ := bind_eq_ok.mp rest
  obtain ⟨compared, rfl⟩ := found_eq_ok.mp looked
  obtain ⟨rfl, plans, entries⟩ := planStates_eq_ok first
  refine ⟨plan, results, compared, fun entry => by simp [entries], ?_⟩
  have resolved := resolveStates_eq_ok last
  clear ran rest first last entries compared looked
  generalize snapshot.files = files at plans resolved ⊢
  induction plans generalizing states with
  | nil =>
    cases resolved
    exact .nil
  | cons head _ ih =>
    rw [List.zip_cons_cons] at resolved
    cases resolved with
    | cons own rest =>
      refine .cons ?_ (ih rest)
      have kind := planRecord_eq_ok head
      split at kind
      · subst kind
        exact own
      · obtain ⟨comparison, compared, rfl⟩ := kind
        exact ⟨comparison, compared, own⟩

/-- What one file's own comparison gives. -/
theorem status_eq_ok {state : ReviewState}
    (ran : tracker.status snapshot file store = .ok state after) :
    match wholeBaseline store snapshot.identity.reviewUnit file.reviewPath with
    | some baseline => ∃ answer,
        tracker.repository.interdiff baseline snapshot file.reviewPath = .ok answer ∧
        state.status = answer.status
    | none => ∃ comparison, tracker.compareRecord snapshot file
        (store.content snapshot.identity.reviewUnit file.reviewPath) store = .ok comparison after ∧
        state = comparison.state file := by
  obtain ⟨comparison, _, compared, returned⟩ := bind_eq_ok.mp ran
  cases returned
  obtain ⟨content, _, loaded, compared⟩ := bind_eq_ok.mp compared
  obtain ⟨_, _, rfl, rfl⟩ := ReviewStore.load_eq_ok.mp loaded
  unfold wholeBaseline
  cases content : MarkStore.content _ snapshot.identity.reviewUnit file.reviewPath with
  | unreviewed => exact ⟨comparison, content ▸ compared, rfl⟩
  | unknownSchema => exact ⟨comparison, content ▸ compared, rfl⟩
  | reviewed record =>
    rw [content] at compared
    cases covers : record.partialReview with
    | some review =>
      simp only [covers, Option.isNone_some, Bool.false_eq_true, if_false]
      exact ⟨comparison, compared, rfl⟩
    | none =>
      simp only [covers, Option.isNone_none, if_true]
      simp only [compareRecord, covers] at compared
      obtain ⟨answer, _, looked, rest⟩ := bind_eq_ok.mp compared
      obtain ⟨asked, rfl⟩ := found_eq_ok.mp looked
      refine ⟨answer, asked, ?_⟩
      cases answer with
      | missingBaseline =>
        obtain ⟨_, _, _, returned⟩ := bind_eq_ok.mp rest
        cases returned
        rfl
      | diff unified =>
        cases rest
        by_cases empty : unified = [] <;> simp [ReviewComparison.state, Interdiff.status, empty,
          ReviewState.reviewed, ReviewState.changedSinceReview]

end ReviewTracker

namespace Git

variable {git : Git} {snapshot : Snapshot} {plan : BaselineComparisonPlan}

theorem compareEach_eq_ok {results after : SnapshotId → Option BaselineComparison}
    {baselines : List SnapshotId} (nodup : baselines.Nodup)
    (ran : git.compareEach snapshot plan results baselines = .ok after) :
    (∀ baseline ∈ baselines, ∃ comparison, git.compareBaseline snapshot baseline
      (plannedPaths plan baseline) = .ok comparison ∧ after baseline = some comparison) ∧
    ∀ baseline, baseline ∉ baselines → after baseline = results baseline := by
  induction baselines generalizing results with
  | nil =>
    cases ran
    exact ⟨fun _ mem => absurd mem List.not_mem_nil, fun _ _ => rfl⟩
  | cons first rest ih =>
    obtain ⟨apart, nodup⟩ := List.nodup_cons.mp nodup
    obtain ⟨comparison, compared, others⟩ := except_bind_eq_ok.mp ran
    obtain ⟨each, kept⟩ := ih nodup others
    refine ⟨List.forall_mem_cons.mpr ⟨⟨comparison, compared, ?_⟩, each⟩, fun baseline absent => ?_⟩
    · rw [kept first apart, Function.update_self]
    · obtain ⟨differs, absent⟩ := not_or.mp (mt List.mem_cons.mpr absent)
      rw [kept baseline absent, Function.update_of_ne differs]

theorem compareBaselines_eq_ok {results : SnapshotId → Option BaselineComparison}
    (ran : git.compareBaselines snapshot plan = .ok results) {entry : SnapshotId × RepoPath}
    (mem : entry ∈ plan) : ∃ comparison, git.compareBaseline snapshot entry.1
      (plannedPaths plan entry.1) = .ok comparison ∧ results entry.1 = some comparison :=
  (compareEach_eq_ok (Finset.sort_nodup _ _) ran).1 _
    ((Finset.mem_sort _).mpr (Finset.mem_image_of_mem _ mem))

/-- How `git` answers: which paths differ between two snapshots, and which paths a pathspec
matches. -/
structure Documented (git : Git) (differs : SnapshotId → SnapshotId → RepoPath → Prop)
    (matched : Bytes → RepoPath → Prop) : Prop where
  /-- A diff fails without the trees. -/
  treeless : ∀ baseline head specs, git.hasTree baseline = false →
    git.numstat baseline head specs = none
  /-- Each path that differs and is matched is printed, on a side of a rename or alone. -/
  listed : ∀ baseline head specs records, git.numstat baseline head specs = some records →
    ∀ path, (∃ record ∈ records, record.path = path ∨ record.renamedFrom = some path) ↔
      differs baseline head path ∧ ∃ spec ∈ specs, matched spec path
  /-- It is printed once. -/
  once : ∀ baseline head specs records, git.numstat baseline head specs = some records →
    (records.flatMap fun record => record.path :: record.renamedFrom.toList).Nodup
  clean : ∀ baseline head specs records, git.numstat baseline head specs = some records →
    ∀ record ∈ records, record.Clean
  /-- A diff is empty when no path that the pathspec matches differs. -/
  empty : ∀ baseline head spec unified, git.diff baseline head spec = some unified →
    (unified = [] ↔ ∀ path, differs baseline head path → ¬matched spec path)
  /-- A literal pathspec matches its path and what is below it. -/
  literal : ∀ path other, matched (gitLiteralPathspec path) other ↔
    other = path ∨ path ++ [47] <+: other

/-- The comparison of planned paths prints the path as the old side of a rename. -/
def MovedAway (git : Git) (baseline head : SnapshotId) (planned : Finset RepoPath)
    (path : RepoPath) : Prop :=
  ∃ records, git.numstat baseline head (planned.image gitLiteralPathspec) = some records ∧
    ∃ record ∈ records, record.renamedFrom = some path

namespace Documented

variable {differs : SnapshotId → SnapshotId → RepoPath → Prop} {matched : Bytes → RepoPath → Prop}
variable {baseline head : SnapshotId} {planned : Finset RepoPath} {path : RepoPath}

/-- No record is of the old path of a rename. -/
theorem once_printed {records : List NumstatRecord} {record other : NumstatRecord}
    (once : (records.flatMap fun record => record.path :: record.renamedFrom.toList).Nodup)
    (held : record ∈ records) (moved : other ∈ records) :
    other.renamedFrom ≠ some record.path := fun away => by
  obtain ⟨each, apart⟩ := List.nodup_flatMap.mp once
  by_cases same : record = other
  · subst same
    have sides := each record held
    simp [away] at sides
  · have symmetric : Std.Symm (Function.onFun List.Disjoint fun record : NumstatRecord =>
        record.path :: record.renamedFrom.toList) := ⟨fun _ _ apart => apart.symm⟩
    have disjoint := apart.forall held moved same
    exact disjoint List.mem_cons_self (by simp [away])

/-- The statistics have the planned paths that differ and did not move. -/
theorem statistics_iff (documented : git.Documented differs matched)
    {comparison : PathStatistics} (mem : path ∈ planned)
    (ran : git.compareBaseline snapshot baseline planned = .ok (.compared comparison)) :
    (comparison path).isSome = true ↔ differs baseline snapshot.identity.snapshotId path ∧
      ¬git.MovedAway baseline snapshot.identity.snapshotId planned path := by
  unfold compareBaseline at ran
  split at ran
  · next records printed =>
    obtain ⟨statistics, read, same⟩ := except_map_eq_ok.mp ran
    cases same
    rw [parseGitStats_print (documented.clean _ _ _ _ printed)] at read
    cases read
    have listed := documented.listed _ _ _ _ printed path
    have spec : ∃ spec ∈ planned.image gitLiteralPathspec, matched spec path :=
      ⟨_, Finset.mem_image_of_mem _ mem, (documented.literal path path).mpr (.inl rfl)⟩
    have moved : git.MovedAway baseline snapshot.identity.snapshotId planned path ↔
        ∃ record ∈ records, record.renamedFrom = some path := by
      refine ⟨fun ⟨others, again, found⟩ => ?_, fun found => ⟨records, printed, found⟩⟩
      obtain rfl := Option.some.inj (printed.symm.trans again)
      exact found
    rw [statistics_isSome, moved]
    simp only [Option.isSome_none, Bool.false_eq_true, false_or]
    constructor
    · rintro ⟨record, held, rfl⟩
      refine ⟨(listed.mp ⟨record, held, .inl rfl⟩).1, ?_⟩
      rintro ⟨other, moved, away⟩
      exact once_printed (documented.once _ _ _ _ printed) held moved away
    · rintro ⟨changed, stays⟩
      obtain ⟨record, held, same | away⟩ := listed.mpr ⟨changed, spec⟩
      · exact ⟨record, held, same⟩
      · exact absurd ⟨record, held, away⟩ stays
  · split at ran <;> cases ran

/-- When the batch and the file's own diff say the same of a planned path. -/
theorem compared_status_iff (documented : git.Documented differs matched) {file : ChangedFile}
    {comparison : BaselineComparison} {answer : Interdiff} (mem : file.reviewPath ∈ planned)
    (ran : git.compareBaseline snapshot baseline planned = .ok comparison)
    (asked : git.interdiff snapshot baseline file.reviewPath = .ok answer) :
    (ReviewTracker.comparedState file comparison).status = answer.status ↔
    (git.hasTree baseline = true →
      ((differs baseline snapshot.identity.snapshotId file.reviewPath ∧
        ¬git.MovedAway baseline snapshot.identity.snapshotId planned file.reviewPath) ↔
      ∃ path, differs baseline snapshot.identity.snapshotId path ∧ matched file.reviewPath path)) := by
  unfold interdiff at asked
  split_ifs at asked with tree
  · split at asked
    · next unified printed =>
      cases asked
      have changed : unified ≠ [] ↔
          ∃ path, differs baseline snapshot.identity.snapshotId path ∧ matched file.reviewPath path := by
        simp only [Ne, documented.empty _ _ _ _ printed, not_forall, not_not, exists_prop]
      cases comparison with
      | missing =>
        unfold compareBaseline at ran
        split at ran
        · obtain ⟨_, _, same⟩ := except_map_eq_ok.mp ran
          cases same
        · rw [if_pos tree] at ran
          cases ran
      | compared statistics =>
        have listed := documented.statistics_iff mem ran
        simp only [tree, forall_const, ← changed, ← listed, ReviewTracker.comparedState]
        cases statistics file.reviewPath <;> by_cases none : unified = [] <;>
          simp [none, Interdiff.status, ReviewState.reviewed, ReviewState.changedSinceReview]
    · cases asked
  · cases asked
    simp only [compareBaseline, documented.treeless _ _ _ (Bool.not_eq_true _ ▸ tree)] at ran
    rw [if_neg tree] at ran
    cases ran
    simp [tree, Interdiff.status, ReviewTracker.comparedState, ReviewState.unreviewed]

end Documented

/-- The paths with a whole-file mark at a baseline. -/
def reviewedAt (snapshot : Snapshot) (store : MarkStore) (baseline : SnapshotId) : Finset RepoPath :=
  ((snapshot.files.filter fun file =>
    wholeBaseline store snapshot.identity.reviewUnit file.reviewPath = some baseline).map
      (·.reviewPath)).toFinset

variable {tracker : ReviewTracker} {store after : MarkStore}
variable {differs : SnapshotId → SnapshotId → RepoPath → Prop} {matched : Bytes → RepoPath → Prop}

theorem statuses_agree_iff (documented : git.Documented differs matched) {other : Repository}
    (backend : tracker.repository = git.repository other) {states : List ReviewState}
    (ran : tracker.statuses snapshot store = .ok states after) :
    states.length = snapshot.files.length ∧
    ∀ (i : Nat) (file : ChangedFile) (batch single : ReviewState) (after' : MarkStore),
      snapshot.files[i]? = some file →
      states[i]? = some batch →
      tracker.status snapshot file store = .ok single after' →
      (batch.status = single.status ↔ ∀ baseline,
        wholeBaseline store snapshot.identity.reviewUnit file.reviewPath = some baseline →
        git.hasTree baseline = true →
        ((differs baseline snapshot.identity.snapshotId file.reviewPath ∧
          ¬git.MovedAway baseline snapshot.identity.snapshotId (reviewedAt snapshot store baseline)
            file.reviewPath) ↔
        ∃ path, differs baseline snapshot.identity.snapshotId path ∧
          matched file.reviewPath path)) := by
  obtain ⟨plan, results, compared, entries, each⟩ := ReviewTracker.statuses_eq_ok ran
  rw [backend] at compared
  obtain ⟨same, each⟩ := List.forall₂_iff_get.mp each
  refine ⟨same.symm, fun i file batch single after' held listed own => ?_⟩
  obtain ⟨inFiles, rfl⟩ := List.getElem?_eq_some_iff.mp held
  obtain ⟨inStates, rfl⟩ := List.getElem?_eq_some_iff.mp listed
  have whole := each i inFiles inStates
  have alone := ReviewTracker.status_eq_ok own
  simp only [List.get_eq_getElem] at whole
  cases baseline : wholeBaseline store snapshot.identity.reviewUnit
      snapshot.files[i].reviewPath with
  | none =>
    rw [baseline] at whole alone
    obtain ⟨comparison, ran, batch⟩ := whole
    obtain ⟨again, ran', single⟩ := alone
    rw [ran] at ran'
    cases ran'
    simp [batch, single]
  | some baseline' =>
    rw [baseline] at whole alone
    obtain ⟨comparison, found, batch⟩ := whole
    obtain ⟨answer, asked, single⟩ := alone
    have planned : ∀ path, path ∈ plannedPaths plan baseline' ↔ path ∈ reviewedAt snapshot store baseline' := by
      intro path
      simp only [plannedPaths, reviewedAt, Finset.mem_image, Finset.mem_filter, entries,
        List.mem_toFinset, List.mem_map, List.mem_filter, decide_eq_true_eq, Prod.exists]
      constructor
      · rintro ⟨_, _, ⟨⟨file, mem, rfl, whole⟩, rfl⟩, rfl⟩
        exact ⟨file, ⟨mem, whole⟩, rfl⟩
      · rintro ⟨file, ⟨mem, whole⟩, rfl⟩
        exact ⟨_, _, ⟨⟨file, mem, rfl, whole⟩, rfl⟩, rfl⟩
    have mem : (baseline', snapshot.files[i].reviewPath) ∈ plan :=
      (entries _).mpr ⟨_, List.getElem_mem inFiles, rfl, baseline⟩
    obtain ⟨comparison', ran', found'⟩ := compareBaselines_eq_ok compared mem
    obtain rfl := Option.some.inj (found.symm.trans found')
    rw [Finset.ext planned] at ran'
    rw [backend] at asked
    have here : snapshot.files[i].reviewPath ∈ reviewedAt snapshot store baseline' :=
      (planned _).mp (Finset.mem_image.mpr ⟨_, Finset.mem_filter.mpr ⟨mem, rfl⟩, rfl⟩)
    rw [batch, single, documented.compared_status_iff here ran' asked]
    simp

/-! A repository where the file `ab` differs from the baseline. -/

def matchesSample (spec : Bytes) (path : RepoPath) : Prop :=
  (∃ other, spec = gitLiteralPathspec other ∧ (path = other ∨ other ++ [47] <+: path)) ∨
    spec = bytesOf "a*" ∧ path.head? = some 97

def sampleGit : Git where
  hasTree := fun _ => true
  numstat := fun _ _ specs => some <|
    if bytesOf "a*" ∈ specs ∨ gitLiteralPathspec (bytesOf "ab") ∈ specs
    then [⟨some 1, some 1, none, bytesOf "ab"⟩] else []
  diff := fun _ _ spec => some <|
    if spec = bytesOf "a*" ∨ spec = gitLiteralPathspec (bytesOf "ab") then bytesOf "diff" else []

theorem matchesSample_ab {spec : Bytes} : matchesSample spec (bytesOf "ab") ↔
    spec = bytesOf "a*" ∨ spec = gitLiteralPathspec (bytesOf "ab") := by
  constructor
  · rintro (⟨other, rfl, rfl | below⟩ | ⟨rfl, _⟩)
    · exact .inr rfl
    · have slash : (47 : UInt8) ∈ bytesOf "ab" := below.subset (by simp)
      exact absurd slash (by decide)
    · exact .inl rfl
  · rintro (rfl | rfl)
    · exact .inr ⟨rfl, rfl⟩
    · exact .inl ⟨_, rfl, .inl rfl⟩

theorem documented_sampleGit :
    sampleGit.Documented (fun _ _ path => path = bytesOf "ab") matchesSample where
  treeless := fun _ _ _ absent => nomatch absent
  listed := by
    rintro _ _ specs _ ⟨⟩ path
    have listed : (∃ spec ∈ specs, matchesSample spec (bytesOf "ab")) ↔
        bytesOf "a*" ∈ specs ∨ gitLiteralPathspec (bytesOf "ab") ∈ specs := by
      simp [matchesSample_ab, and_or_left, exists_or]
    by_cases held : bytesOf "a*" ∈ specs ∨ gitLiteralPathspec (bytesOf "ab") ∈ specs
    · simp only [if_pos held, List.mem_singleton, exists_eq_left, reduceCtorEq, or_false]
      exact ⟨fun same => same ▸ ⟨rfl, listed.mpr held⟩, fun same => same.1.symm⟩
    · simp only [if_neg held, List.not_mem_nil, false_and, exists_false, false_iff, not_and]
      rintro rfl
      exact mt listed.mp held
  once := by
    rintro _ _ specs _ ⟨⟩
    split_ifs <;> simp
  clean := by
    rintro _ _ specs _ ⟨⟩ record mem
    split_ifs at mem with held
    · obtain rfl := List.mem_singleton.mp mem
      exact ⟨by decide, by decide, fun _ absent => (nomatch absent), by simp⟩
    · cases mem
  empty := by
    rintro _ _ spec _ ⟨⟩
    by_cases held : spec = bytesOf "a*" ∨ spec = gitLiteralPathspec (bytesOf "ab")
    · simp only [forall_eq, matchesSample_ab, held, if_true, not_true, iff_false]
      decide
    · simp [held, matchesSample_ab]
  literal := by
    intro path other
    constructor
    · rintro (⟨named, same, held⟩ | ⟨pattern, _⟩)
      · obtain rfl := List.append_cancel_left same
        exact held
      · have size := congrArg List.length pattern
        rw [gitLiteralPathspec, List.length_append] at size
        have long : (bytesOf ":(top,literal)").length = 14 := by decide
        have short : (bytesOf "a*").length = 2 := by decide
        omega
    · exact fun held => .inl ⟨path, rfl, held⟩

def sampleTracker : ReviewTracker where
  differ := trimmedDiffer
  repository := sampleGit.repository
    { currentIdentity := .ok (.git "ba" "5e")
      diff := fun _ _ => .ok []
      fileAt := fun _ _ => .ok []
      baseFileAt := fun _ _ => .ok []
      interdiff := fun _ _ _ => .ok .missingBaseline
      compareBaselines := fun _ _ => .ok fun _ => none
      parseFileDiff := fun _ _ => [] }

def sampleFile (path : RepoPath) : ChangedFile := ⟨some path, some path, .file, .file, .zero, rfl⟩

def sampleSnapshot (path : RepoPath) : Snapshot := ⟨.git "ba" "5e", [sampleFile path]⟩

/-- A whole-file mark of a path. -/
def sampleStore (path : RepoPath) : MarkStore :=
  MarkStore.empty.write "ba" ⟨path, "01", "then", .reviewer, none⟩

/-- The statuses of a batch. -/
def batchStatuses (path : RepoPath) : Option (List ReviewStatus) :=
  match sampleTracker.statuses (sampleSnapshot path) (sampleStore path) with
  | .ok states _ => some (states.map (·.status))
  | .error _ _ => none

def ownStatus (path : RepoPath) : Option ReviewStatus :=
  match sampleTracker.status (sampleSnapshot path) (sampleFile path) (sampleStore path) with
  | .ok state _ => some state.status
  | .error _ _ => none

theorem pattern_path_differs : sampleGit.Documented (fun _ _ path => path = bytesOf "ab") matchesSample ∧
    batchStatuses (bytesOf "a*") = some [.reviewed] ∧
    ownStatus (bytesOf "a*") = some .changedSinceReview := by
  refine ⟨documented_sampleGit, ?_, ?_⟩
  · decide +kernel
  · decide

/-- A file whose path is no pattern has one status. -/
theorem plain_path_agrees : batchStatuses (bytesOf "b") = some [.reviewed] ∧
    ownStatus (bytesOf "b") = some .reviewed := by
  have batch : batchStatuses (bytesOf "b") = some [.reviewed] := by decide +kernel
  have own : (ownStatus (bytesOf "b")).isSome = true := by decide
  refine ⟨batch, ?_⟩
  unfold batchStatuses at batch
  unfold ownStatus at own ⊢
  split at batch
  · next states _ ran =>
    split at own
    · next state _ alone =>
      obtain ⟨same, each⟩ := statuses_agree_iff documented_sampleGit rfl ran
      obtain ⟨first, rfl⟩ := List.length_eq_one_iff.mp same
      have reviewed : first.status = .reviewed := by simpa using batch
      rw [← reviewed]
      refine congrArg some ((each 0 _ first state _ rfl rfl alone).mpr fun baseline _ _ => ?_).symm
      refine ⟨fun changed => absurd changed.1 (by decide), ?_⟩
      rintro ⟨_, rfl, pattern⟩
      exact absurd (matchesSample_ab.mp pattern) (by decide)
    · cases own
  · cases batch

end Git

end ProgressiveReviewer.Marks
