import ProgressiveReviewer.Hunks.Classify
import ProgressiveReviewer.Hunks.Lines
import ProgressiveReviewer.Marks.Snapshot

/-! Review state derived from stored repository baselines
(`review-state/src/review.rs`). Diffs are computed each time they are asked for: the
source keeps some of them by snapshot, path and record. -/

namespace ProgressiveReviewer.Marks

open Library Hunks

/-- The review state of one changed path. -/
inductive ReviewStatus where
  | unreviewed
  | reviewed
  | changedSinceReview
  | partiallyReviewed
  deriving DecidableEq, Repr

/-- A non-fatal warning found while deriving review state. -/
inductive ReviewWarning where
  | unknownSchema
  | baselineExpired
  deriving DecidableEq, Repr

/-- Derived state and its optional storage warning. -/
structure ReviewState where
  status : ReviewStatus
  warning : Option ReviewWarning
  currentDiffStatistics : DiffStatistics
  /-- How many changed lines are reviewed, for a partially reviewed path. -/
  lines : Option LineCount
  deriving DecidableEq, Repr

namespace ReviewState

def unreviewed (statistics : DiffStatistics) (warning : Option ReviewWarning) : ReviewState :=
  ⟨.unreviewed, warning, statistics, none⟩

def reviewed : ReviewState := ⟨.reviewed, none, .zero, none⟩

def changedSinceReview (statistics : DiffStatistics) : ReviewState :=
  ⟨.changedSinceReview, none, statistics, none⟩

def partiallyReviewed (statistics : DiffStatistics) (lines : Option LineCount) : ReviewState :=
  ⟨.partiallyReviewed, none, statistics, lines⟩

end ReviewState

/-- A unified diff and the complete files on both sides. -/
structure ReviewDiff where
  /-- The open diff: from the reviewed version, or from the base when
  nothing is reviewed, to the current file. -/
  unified : Bytes
  oldContent : Option Bytes
  newContent : Option Bytes
  hunks : FileHunks
  deriving DecidableEq

/-- The result of a request to mark one path as reviewed. -/
inductive MarkResult where
  | marked
  /-- The user moved to a different change before the mark. -/
  | changeChanged
  | nothingToMark
  deriving DecidableEq, Repr

inductive ReviewComparison where
  | unreviewed (warning : Option ReviewWarning)
  | compared (baselineCommitId : String) (diff : Bytes)
  /-- Some lines are reviewed: the reviewed version, moved onto the current
  base, and the open diff from it. -/
  | partially (reviewed : Reviewed) (current : Option Bytes) (diff : Bytes) (hunks : FileHunks)
  deriving DecidableEq

def ReviewComparison.state (file : ChangedFile) : ReviewComparison → ReviewState
  | .unreviewed warning => .unreviewed file.statistics warning
  | .compared _ diff =>
    if diff = [] then .reviewed else .changedSinceReview (.fromUnifiedDiff diff)
  | .partially _ _ diff hunks =>
    if diff = [] then .reviewed else .partiallyReviewed (.fromUnifiedDiff diff) hunks.count

/-- The three versions of one file a hunk or line mark works on. -/
structure Versions where
  base : Bytes
  reviewed : Reviewed
  current : Bytes
  deriving DecidableEq

def Versions.review (versions : Versions) : HunkReview :=
  (HunkReview.new versions.base versions.reviewed.text versions.current).attributed
    versions.reviewed.attribution

/-- The reviewed version behind a whole-file mark's open diff, which runs from
that version moved onto the current base. -/
def wholeFileReviewedVersion (diff : ReviewDiff) : Option Bytes :=
  reverseApply diff.unified (diff.newContent.getD [])

/-- A hunk to accept or reopen. -/
inductive HunkMark where
  | review (span : HunkSpan)
  | unreview (span : HunkSpan)
  deriving DecidableEq, Repr

/-- Review operations for one repository. -/
structure ReviewTracker where
  repository : Repository
  differ : Differ

namespace ReviewTracker

variable (tracker : ReviewTracker) (snapshot : Snapshot) (file : ChangedFile)

def fileContent (revision : SnapshotId) (path : Option RepoPath) (kind : FileKind) :
    Except Error (Option Bytes) :=
  match kind, path with
  | .file, some path => (tracker.repository.fileAt revision path).map some
  | _, _ => .ok none

def baseFileContent (path : Option RepoPath) (kind : FileKind) : Except Error (Option Bytes) :=
  match kind, path with
  | .file, some path => (tracker.repository.baseFileAt snapshot path).map some
  | _, _ => .ok none

def baseText : Except Error Bytes :=
  (tracker.baseFileContent snapshot file.oldPath file.oldKind).map fun text => text.getD []

/-- The current file. -/
def currentContent : Except Error (Option Bytes) :=
  tracker.fileContent snapshot.identity.snapshotId file.newPath file.newKind

/-- Whether the file changed after a mark saved at `baseline`: other
files changing in between does not age it. -/
def markAge (baseline : SnapshotId) (current : Option Bytes) : MarkAge :=
  if baseline = snapshot.identity.snapshotId then .current
  else match tracker.fileContent baseline file.newPath file.newKind with
    | .ok marked => if marked = current then .current else .outdated
    | .error _ => .outdated

/-- Compare a mark that covers only some lines, saved at `baseline`, with
the current file. -/
def comparePartial (review : PartialReview) (baseline : SnapshotId) :
    Except Error ReviewComparison := do
  let base ← tracker.baseText snapshot file
  let reviewed := replay tracker.differ review.base review.reviewed base
  -- A rebase can drop every reviewed change.
  if reviewed.text = base then return .unreviewed none
  let current ← tracker.currentContent snapshot file
  let currentText := current.getD []
  let diff := unifiedDiff tracker.differ (displayPath file.reviewPath) reviewed.text currentText
  let age := tracker.markAge snapshot file baseline current
  let hunks := (HunkReview.new base reviewed.text currentText).hunks tracker.differ
    (tracker.repository.parseFileDiff diff file) age
  return .partially reviewed current diff hunks

def compareRecord : LoadResult → MarksM ReviewComparison
  | .unreviewed => return .unreviewed none
  | .unknownSchema => return .unreviewed (some .unknownSchema)
  | .reviewed record =>
    match record.partialReview with
    | some review => found (tracker.comparePartial snapshot file review record.baselineCommitId)
    | none => do
      let interdiff ← found
        (tracker.repository.interdiff record.baselineCommitId snapshot file.reviewPath)
      match interdiff with
      | .missingBaseline =>
        ReviewStore.unreviewExpired snapshot.identity.reviewUnit file.reviewPath record.reviewedAt
        return .unreviewed (some .baselineExpired)
      | .diff diff => return .compared record.baselineCommitId diff

def loadRecord : MarksM LoadResult :=
  ReviewStore.load snapshot.identity.reviewUnit file.reviewPath

def compare : MarksM ReviewComparison := do
  let record ← loadRecord snapshot file
  tracker.compareRecord snapshot file record

/-- Derive the current review state of one changed path. -/
def status : MarksM ReviewState := do
  let comparison ← tracker.compare snapshot file
  return comparison.state file

/-- The hunks of a path whose whole-file mark is out of date. -/
def comparedHunks (loaded : ReviewDiff) : Except Error FileHunks :=
  match wholeFileReviewedVersion loaded with
  | none => .ok loaded.hunks
  | some reviewed => do
    let base ← tracker.baseText snapshot file
    return (HunkReview.new base reviewed (loaded.newContent.getD [])).hunks tracker.differ
      (tracker.repository.parseFileDiff loaded.unified file) .outdated

def loadDiff (record : LoadResult) : MarksM ReviewDiff := do
  match ← tracker.compareRecord snapshot file record with
  | .unreviewed _ =>
    let unified ← found (tracker.repository.diff snapshot file)
    let oldContent ← found (tracker.baseFileContent snapshot file.oldPath file.oldKind)
    let newContent ← found (tracker.currentContent snapshot file)
    return ⟨unified, oldContent, newContent,
      .unreviewed (tracker.repository.parseFileDiff unified file)⟩
  | .compared baselineCommitId diff =>
    let kind := if file.oldKind = .file then file.oldKind else file.newKind
    let oldContent ← found (tracker.fileContent baselineCommitId (some file.reviewPath) kind)
    let newContent ← found (tracker.currentContent snapshot file)
    let loaded : ReviewDiff := ⟨diff, oldContent, newContent, ⟨[], []⟩⟩
    let hunks ← found (tracker.comparedHunks snapshot file loaded)
    return { loaded with hunks }
  | .partially reviewed current diff hunks =>
    return ⟨diff, some reviewed.text, current, hunks⟩

/-- Load the diff and both complete file versions for one changed path. -/
def diff : MarksM ReviewDiff := do
  let record ← loadRecord snapshot file
  tracker.loadDiff snapshot file record

/-- The reviewed version of one path on its current base. -/
def reviewedVersion (diff : ReviewDiff) (base : Bytes) : MarksM Reviewed := do
  match ← loadRecord snapshot file with
  | .unreviewed => return ⟨base, .reviewerOnly⟩
  | .unknownSchema => throw (.report "a newer reviewer wrote this file's review mark")
  | .reviewed record =>
    match record.partialReview with
    | some review => return replay tracker.differ review.base review.reviewed base
    | none =>
      match wholeFileReviewedVersion diff with
      | some text => return ⟨text, .uniform record.author⟩
      | none => throw (.report "could not rebuild the reviewed version of the file")

/-- The base, the reviewed version and the current file behind one path's diff. -/
def versions (diff : ReviewDiff) : MarksM Versions := do
  let base ← found (tracker.baseText snapshot file)
  let reviewed ← tracker.reviewedVersion snapshot file diff base
  return ⟨base, reviewed, diff.newContent.getD []⟩

/-- Store the reviewed version a hunk or line mark left. A file one
author reviewed whole gets a whole-file mark; with several authors,
a mark of some lines that reviews every line keeps who reviewed which. -/
def storeVersion (now : String) (versions : Versions) (version : ReviewedVersion) :
    MarksM Unit := do
  let unit := snapshot.identity.reviewUnit
  let path := file.reviewPath
  let snapshotId := snapshot.identity.snapshotId
  let markPartial := fun reviewed => do
    let _ ← ReviewStore.markPartial unit path snapshotId now ⟨versions.base, reviewed⟩
    return ()
  match version with
  | .current attribution =>
    match attribution.uniformAuthor with
    | some author => do
      let _ ← ReviewStore.mark unit path snapshotId now author
      return ()
    | none => markPartial ⟨versions.current, attribution⟩
  | .base => ReviewStore.unreview unit path
  | .partially reviewed => markPartial reviewed

/-- Store the reviewed version `edit` makes of one path at the current exact commit. The read
of the reviewed version and the write of the new one run under one lock. -/
def edit (now : String) (edit : ReviewDiff → HunkReview → Except Error (Option ReviewedVersion)) :
    MarksM MarkResult := do
  let identity ← found tracker.repository.currentIdentity
  if identity.reviewUnit ≠ snapshot.identity.reviewUnit then return .changeChanged
  ReviewStore.lockMarks identity.reviewUnit
  let diff ← tracker.diff snapshot file
  let versions ← tracker.versions snapshot file diff
  match ← found (edit diff versions.review) with
  | none => return .nothingToMark
  | some version =>
    storeVersion snapshot file now versions version
    return .marked

/-- Accept the open lines `selection` names, as `author`. -/
def acceptLines (now : String) (selection : LineSelection) (author : MarkAuthor) :
    MarksM MarkResult :=
  tracker.edit snapshot file now fun diff review =>
    .ok (if diff.hunks.isEmpty then none else review.acceptLines tracker.differ selection author)

/-- Reopen the reviewed lines `selection` names. -/
def reopenLines (now : String) (selection : LineSelection) : MarksM MarkResult :=
  tracker.edit snapshot file now fun diff review =>
    .ok (if diff.hunks.isEmpty then none else review.reopenLines tracker.differ selection)

/-- Accept or reopen one hunk of a path at the current exact commit. -/
def markHunk (now : String) (mark : HunkMark) (author : MarkAuthor) : MarksM MarkResult :=
  tracker.edit snapshot file now fun diff review =>
    let listed := match mark with
      | .review span => diff.hunks.open.any fun hunk => hunk.span = span
      | .unreview span => diff.hunks.reviewed.any fun hunk => hunk.span = span
    let version := match mark with
      | .review span => review.review tracker.differ span author
      | .unreview span => review.unreview tracker.differ span
    if !listed then .error (.report "the hunk changed; wait for the next refresh")
    else match version with
      | some version => .ok (some version)
      | none =>
        .error (.report "the hunk no longer matches the file; wait for the next refresh")

/-- Accept the open hunks of a path whose changed lines `accept` approves,
and return how many were accepted. Unless `mayReviewFile`, it
accepts none when every open hunk passes, because the path changes
more than its hunks and only a whole-file review covers that. -/
def reviewHunksWhere (now : String) (mayReviewFile : Bool) (author : MarkAuthor)
    (accept : ChangedLines → Bool) : MarksM Nat := do
  ReviewStore.lockMarks snapshot.identity.reviewUnit
  let diff ← tracker.diff snapshot file
  let spans := diff.hunks.open.map OpenHunk.span
  if spans = [] then return 0
  let versions ← tracker.versions snapshot file diff
  let review := versions.review
  let accepted := ((spans.zip (review.changedLines tracker.differ spans)).filter
    fun entry => accept entry.2).map Prod.fst
  if accepted = [] ∨ (!mayReviewFile ∧ accepted.length = spans.length) then return 0
  match review.reviewAll tracker.differ accepted author with
  | none => throw (.report "the open hunks overlap")
  | some version =>
    storeVersion snapshot file now versions version
    return accepted.length

/-- Mark one path at the current exact commit. -/
def mark (now : String) (author : MarkAuthor) : MarksM MarkResult := do
  let identity ← found tracker.repository.currentIdentity
  if identity.reviewUnit ≠ snapshot.identity.reviewUnit then return .changeChanged
  ReviewStore.lockMarks identity.reviewUnit
  let _ ← ReviewStore.mark identity.reviewUnit file.reviewPath identity.snapshotId now author
  return .marked

/-- Remove the review mark for one path. -/
def unreview : MarksM Unit := do
  ReviewStore.lockMarks snapshot.identity.reviewUnit
  ReviewStore.unreview snapshot.identity.reviewUnit file.reviewPath

end ReviewTracker

/-- One path's state, or the stored baseline to compare it with. -/
inductive PlannedReviewState where
  | resolved (state : ReviewState)
  | compare (baselineSnapshotId : SnapshotId)
  deriving DecidableEq

namespace ReviewTracker

variable (tracker : ReviewTracker) (snapshot : Snapshot)

/-- One path's state by its record, or the baseline to compare it with. -/
def planRecord (file : ChangedFile) : LoadResult → Except Error PlannedReviewState
  | .unreviewed => .ok (.resolved (.unreviewed file.statistics none))
  | .unknownSchema => .ok (.resolved (.unreviewed file.statistics (some .unknownSchema)))
  | .reviewed record =>
    match record.partialReview with
    | some review =>
      (tracker.comparePartial snapshot file review record.baselineCommitId).map fun comparison =>
        .resolved (comparison.state file)
    | none => .ok (.compare record.baselineCommitId)

/-- The comparison a path's planned state adds to the plan. -/
def planned (file : ChangedFile) : PlannedReviewState → BaselineComparisonPlan
  | .resolved _ => ∅
  | .compare baselineSnapshotId => {(baselineSnapshotId, file.reviewPath)}

/-- Resolve one path's state now, or add it to the grouped baseline comparison. -/
def planState (file : ChangedFile) (plan : BaselineComparisonPlan) :
    MarksM (PlannedReviewState × BaselineComparisonPlan) := do
  let record ← loadRecord snapshot file
  let state ← found (tracker.planRecord snapshot file record)
  return (state, plan ∪ planned file state)

/-- A planned path's state by what its stored baseline compared to. -/
def comparedState (file : ChangedFile) : BaselineComparison → ReviewState
  | .missing => .unreviewed file.statistics (some .baselineExpired)
  | .compared pathStatistics =>
    match pathStatistics file.reviewPath with
    | some statistics => .changedSinceReview statistics
    | none => .reviewed

/-- One path's state once the baselines were compared; a mark whose baseline is gone is
removed. -/
def resolveState (results : SnapshotId → Option BaselineComparison) (file : ChangedFile) :
    PlannedReviewState → MarksM ReviewState
  | .resolved state => return state
  | .compare baselineSnapshotId =>
    match results baselineSnapshotId with
    | some .missing => do
      ReviewStore.unreview snapshot.identity.reviewUnit file.reviewPath
      return comparedState file .missing
    | some (.compared pathStatistics) => return comparedState file (.compared pathStatistics)
    | none => throw (.report "comparison plan omitted a stored baseline")

def planStates : List ChangedFile → BaselineComparisonPlan →
    MarksM (List PlannedReviewState × BaselineComparisonPlan)
  | [], plan => return ([], plan)
  | file :: files, plan => do
    let (state, plan) ← tracker.planState snapshot file plan
    let (states, plan) ← planStates files plan
    return (state :: states, plan)

def resolveStates (results : SnapshotId → Option BaselineComparison) :
    List (ChangedFile × PlannedReviewState) → MarksM (List ReviewState)
  | [] => return []
  | (file, state) :: rest => do
    let state ← resolveState snapshot results file state
    let states ← resolveStates results rest
    return state :: states

/-- Derive all path states with comparisons grouped by stored baseline. -/
def statuses : MarksM (List ReviewState) := do
  let (states, plan) ← tracker.planStates snapshot snapshot.files ∅
  let results ← found (tracker.repository.compareBaselines snapshot plan)
  resolveStates snapshot results (snapshot.files.zip states)

end ReviewTracker

end ProgressiveReviewer.Marks
