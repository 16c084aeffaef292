import ProgressiveReviewer.Hunks.Splice
import ProgressiveReviewer.Marks.Tracker

/-! What a stored line decision reads back as: `storeVersion` writes no record, a
whole-file mark or a mark of some lines, and the reviewed version and the status are
derived from it again on the same snapshot. -/

namespace ProgressiveReviewer.Hunks

open Library

def ReviewedVersion.attribution : ReviewedVersion → Attribution
  | .current attribution => attribution
  | .base => .reviewerOnly
  | .partially reviewed => reviewed.attribution

namespace HunkReview

variable {d : Differ} {self : HunkReview} {version : ReviewedVersion}

/-- The versions that one accept or reopen leaves. -/
inductive EditsTo (d : Differ) (self : HunkReview) (version : ReviewedVersion) : Prop
  | acceptLines (selection author) (found : self.acceptLines d selection author = some version)
  | reopenLines (selection) (found : self.reopenLines d selection = some version)
  | reviewAll (spans author) (found : self.reviewAll d spans author = some version)
  | unreview (span) (found : self.unreview d span = some version)

theorem EditsTo.rebuilt (edited : self.EditsTo d version) :
    ∃ rebuild : Rebuild, version = self.version (rebuild.finish d self.base) := by
  cases edited with
  | acceptLines _ _ found =>
    simp only [HunkReview.acceptLines, acceptBuild, Option.bind_eq_bind, Option.bind_eq_some_iff,
      Option.map_eq_some_iff, Option.some.injEq] at found
    obtain ⟨_, _, _, ⟨rebuild, _, rfl⟩, rfl⟩ := found
    exact ⟨rebuild, rfl⟩
  | reopenLines _ found =>
    simp only [HunkReview.reopenLines, reopenBuild, Option.bind_eq_bind, Option.bind_eq_some_iff,
      Option.map_eq_some_iff, Option.some.injEq] at found
    obtain ⟨_, _, _, ⟨rebuild, _, rfl⟩, rfl⟩ := found
    exact ⟨rebuild, rfl⟩
  | reviewAll _ _ found =>
    simp only [HunkReview.reviewAll, Option.bind_eq_bind, Option.bind_eq_some_iff,
      Option.some.injEq] at found
    obtain ⟨rebuild, _, rfl⟩ := found
    exact ⟨rebuild, rfl⟩
  | unreview _ found =>
    simp only [HunkReview.unreview, Option.bind_eq_bind, Option.bind_eq_some_iff,
      Option.some.injEq] at found
    obtain ⟨_, _, _, _, _, _, rebuild, _, rfl⟩ := found
    exact ⟨rebuild, rfl⟩

/-- A version that changes nothing has one author. -/
theorem uniformAuthor_finish (quiet : d.Quiet) (rebuild : Rebuild) :
    (rebuild.finish d rebuild.text).attribution.uniformAuthor = some rebuild.default := by
  rw [Attribution.uniformAuthor_eq_some]
  simp [Rebuild.finish, quiet rebuild.text, Attribution.runs, Run.collect, Attribution.uniform]

/-- An edit is written as the current file, as the base or as some lines of both, and
the current file comes first. -/
theorem EditsTo.encoding (quiet : d.Quiet) (edited : self.EditsTo d version) :
    (∃ attribution, version = .current attribution ∧
        (attribution.uniformAuthor = none → self.current ≠ self.base)) ∨
      (version = .base ∧ self.base ≠ self.current) ∨
      ∃ reviewed, version = .partially reviewed ∧ reviewed.text ≠ self.current ∧
        reviewed.text ≠ self.base := by
  obtain ⟨rebuild, rfl⟩ := edited.rebuilt
  by_cases isCurrent : rebuild.text = self.current
  · refine Or.inl ⟨(rebuild.finish d self.base).attribution, if_pos isCurrent, ?_⟩
    intro mixed same
    have uniform := uniformAuthor_finish quiet rebuild
    rw [isCurrent, same, mixed] at uniform
    cases uniform
  · by_cases isBase : rebuild.text = self.base
    · refine Or.inr (Or.inl ⟨?_, by rwa [isBase] at isCurrent⟩)
      rw [HunkReview.version, Rebuild.finish_text, if_neg isCurrent, if_pos isBase]
    · refine Or.inr (Or.inr ⟨rebuild.finish d self.base, ?_, isCurrent, isBase⟩)
      rw [HunkReview.version, Rebuild.finish_text, if_neg isCurrent, if_neg isBase]

end HunkReview

end ProgressiveReviewer.Hunks

namespace ProgressiveReviewer.Marks.ReviewTracker

open Library Hunks

variable {tracker : ReviewTracker} {snapshot : Snapshot} {file : ChangedFile}
  {versions : Versions} {version : ReviewedVersion} {store store' : MarkStore}

/-! Reading a path: every diff ends at the current file. -/

theorem comparePartial_current {review : PartialReview} {baseline : SnapshotId}
    {reviewed : Reviewed} {current : Option Bytes} {unified : Bytes} {hunks : FileHunks}
    (compared : tracker.comparePartial snapshot file review baseline =
      .ok (.partially reviewed current unified hunks)) :
    tracker.currentContent snapshot file = .ok current := by
  simp only [comparePartial, except_bind_eq_ok] at compared
  obtain ⟨base, _, compared⟩ := compared
  split at compared
  · cases compared
  · simp only [except_bind_eq_ok] at compared
    obtain ⟨content, read, returned⟩ := compared
    cases returned
    exact read

theorem diff_newContent {diff : ReviewDiff}
    (loaded : tracker.diff snapshot file store = .ok diff store') :
    tracker.currentContent snapshot file = .ok diff.newContent := by
  simp only [ReviewTracker.diff, bind_eq_ok] at loaded
  obtain ⟨record, _, _, loaded⟩ := loaded
  simp only [loadDiff, bind_eq_ok] at loaded
  obtain ⟨comparison, between, compared, loaded⟩ := loaded
  cases comparison with
  | unreviewed warning =>
    simp only [bind_eq_ok, found_eq_ok] at loaded
    obtain ⟨_, _, _, _, _, _, content, _, ⟨current, _⟩, returned⟩ := loaded
    cases returned
    exact current
  | compared baseline unified =>
    simp only [bind_eq_ok, found_eq_ok] at loaded
    obtain ⟨_, _, _, content, _, ⟨current, _⟩, _, _, _, returned⟩ := loaded
    cases returned
    exact current
  | partially reviewed current unified hunks =>
    cases loaded
    cases record with
    | unreviewed => cases compared
    | unknownSchema => cases compared
    | reviewed record =>
      cases kind : record.partialReview with
      | some review =>
        simp only [compareRecord, kind, found_eq_ok] at compared
        exact comparePartial_current compared.1
      | none =>
        simp only [compareRecord, kind, bind_eq_ok] at compared
        obtain ⟨interdiff, _, _, compared⟩ := compared
        cases interdiff with
        | diff unified => cases compared
        | missingBaseline =>
          simp only [bind_eq_ok] at compared
          obtain ⟨_, _, _, compared⟩ := compared
          cases compared

theorem versions_read {diff : ReviewDiff}
    (read : tracker.versions snapshot file diff store = .ok versions store') :
    tracker.baseText snapshot file = .ok versions.base ∧
      versions.current = diff.newContent.getD [] := by
  simp only [ReviewTracker.versions, bind_eq_ok, found_eq_ok] at read
  obtain ⟨base, _, ⟨baseRead, _⟩, _, _, _, returned⟩ := read
  cases returned
  exact ⟨baseRead, rfl⟩

/-! Writing a version. -/

/-- An edit that marks a path read its versions and stored the version it made of them. -/
theorem edit_eq_marked {now : String} {after : MarkStore}
    {f : ReviewDiff → HunkReview → Except Error (Option ReviewedVersion)} :
    tracker.edit snapshot file now f store = .ok .marked after ↔
      ∃ identity, tracker.repository.currentIdentity = .ok identity ∧
        identity.reviewUnit = snapshot.identity.reviewUnit ∧
        validateReviewUnit identity.reviewUnit = .ok () ∧
        ∃ diff opened versions edited version,
          tracker.diff snapshot file store = .ok diff opened ∧
          tracker.versions snapshot file diff opened = .ok versions edited ∧
          f diff versions.review = .ok (some version) ∧
          storeVersion snapshot file now versions version edited = .ok () after := by
  simp only [edit, bind_eq_ok, found_eq_ok]
  constructor
  · rintro ⟨identity, _, ⟨known, rfl⟩, marked⟩
    refine ⟨identity, known, ?_⟩
    split at marked
    · cases marked
    · next same =>
      simp only [ReviewStore.lockMarks, bind_eq_ok, found_eq_ok] at marked
      obtain ⟨_, _, ⟨unitOk, rfl⟩, diff, opened, loaded, versions, edited, read, found, _,
        ⟨made, rfl⟩, stored⟩ := marked
      cases found with
      | none => cases stored
      | some version =>
        simp only [bind_eq_ok] at stored
        obtain ⟨_, _, stored, returned⟩ := stored
        cases returned
        exact ⟨not_not.mp same, unitOk, diff, opened, versions, _, version, loaded, read, made, stored⟩
  · rintro ⟨identity, known, same, unitOk, diff, opened, versions, edited, version, loaded, read, made,
      stored⟩
    refine ⟨identity, store, ⟨known, rfl⟩, ?_⟩
    rw [if_neg (not_not.mpr same), ReviewStore.lockMarks, unitOk, found_ok_bind, bind_ok loaded,
      bind_ok read, made, found_ok_bind]
    simp only [bind_ok stored, pure_run]

variable (snapshot file) in
/-- The record a stored version leaves. -/
def storedRecord (now : String) (versions : Versions) (version : ReviewedVersion) : LoadResult :=
  let record := fun author partialReview =>
    .reviewed ⟨file.reviewPath, snapshot.identity.snapshotId, now, author, partialReview⟩
  match version with
  | .current attribution =>
    match attribution.uniformAuthor with
    | some author => record author none
    | none => record attribution.default (some ⟨versions.base, ⟨versions.current, attribution⟩⟩)
  | .base => .unreviewed
  | .partially reviewed => record reviewed.attribution.default (some ⟨versions.base, reviewed⟩)

theorem loadRecord_storeVersion {now : String}
    (stored : storeVersion snapshot file now versions version store = .ok () store') :
    loadRecord snapshot file store' =
      .ok (storedRecord snapshot file now versions version) store' := by
  rw [loadRecord, ReviewStore.load_eq_ok]
  cases version with
  | current attribution =>
    cases author : attribution.uniformAuthor with
    | some author =>
      simp only [storeVersion, author, ReviewStore.mark, bind_eq_ok, ReviewStore.storeMark_eq_ok]
        at stored
      obtain ⟨_, _, ⟨unitOk, _, pathOk, rfl, rfl⟩, returned⟩ := stored
      cases returned
      simp [unitOk, pathOk, storedRecord, author, MarkStore.content, MarkStore.write]
    | none =>
      simp only [storeVersion, author, ReviewStore.markPartial, bind_eq_ok,
        ReviewStore.storeMark_eq_ok] at stored
      obtain ⟨_, _, ⟨unitOk, _, pathOk, rfl, rfl⟩, returned⟩ := stored
      cases returned
      simp [unitOk, pathOk, storedRecord, author, MarkStore.content, MarkStore.write]
  | base =>
    simp only [storeVersion, ReviewStore.unreview_eq_ok] at stored
    obtain ⟨unitOk, pathOk, rfl⟩ := stored
    simp [unitOk, pathOk, storedRecord]
  | partially reviewed =>
    simp only [storeVersion, ReviewStore.markPartial, bind_eq_ok, ReviewStore.storeMark_eq_ok]
      at stored
    obtain ⟨_, _, ⟨unitOk, _, pathOk, rfl, rfl⟩, returned⟩ := stored
    cases returned
    simp [unitOk, pathOk, storedRecord, MarkStore.content, MarkStore.write]

/-! Reading the three kinds of records. -/

section Read

variable {record : ReviewRecord} {content : Option Bytes}
  (baseRead : tracker.baseText snapshot file = .ok versions.base)
  (currentRead : tracker.currentContent snapshot file = .ok content)
  (current : versions.current = content.getD [])

variable (tracker snapshot file versions) in
/-- What a later diff of the path works on. -/
def ReadsAs (store : MarkStore) (reviewed : Reviewed) : Prop :=
  ∃ diff, tracker.diff snapshot file store = .ok diff store ∧
    tracker.versions snapshot file diff store = .ok ⟨versions.base, reviewed, versions.current⟩ store

theorem status_of_compared {comparison : ReviewComparison}
    (compared : tracker.compare snapshot file store = .ok comparison store) :
    tracker.status snapshot file store = .ok (comparison.state file) store := by
  rw [status, bind_ok compared, pure_run]

section Whole

variable (loads : loadRecord snapshot file store = .ok (.reviewed record) store)
  (whole : record.partialReview = none)
  (same : tracker.repository.interdiff record.baselineCommitId snapshot file.reviewPath =
    .ok (.diff []))

include same whole in
theorem compareRecord_whole :
    tracker.compareRecord snapshot file (.reviewed record) store =
      .ok (.compared record.baselineCommitId []) store := by
  simp only [compareRecord, whole, same, found_ok_bind, pure_run]

include loads same whole in
theorem status_whole : tracker.status snapshot file store = .ok .reviewed store := by
  have compared : tracker.compare snapshot file store =
      .ok (.compared record.baselineCommitId []) store := by
    rw [compare, bind_ok loads, compareRecord_whole whole same]
  rw [status_of_compared compared]
  rfl

include loads whole same baseRead currentRead current in
theorem readsAs_whole {old : Option Bytes}
    (oldRead : tracker.fileContent record.baselineCommitId (some file.reviewPath)
      (if file.oldKind = .file then file.oldKind else file.newKind) = .ok old) :
    tracker.ReadsAs snapshot file versions store
      ⟨versions.current, .uniform record.author⟩ := by
  have rebuilt : ∀ hunks, wholeFileReviewedVersion ⟨[], old, content, hunks⟩ =
      some versions.current := by
    intro hunks
    rw [current]
    exact reverseApply_nil _
  obtain ⟨hunks, hunksRead⟩ : ∃ hunks,
      tracker.comparedHunks snapshot file ⟨[], old, content, ⟨[], []⟩⟩ = .ok hunks := by
    simp only [comparedHunks, rebuilt, baseRead]
    exact ⟨_, rfl⟩
  refine ⟨⟨[], old, content, hunks⟩, ?_, ?_⟩
  · rw [ReviewTracker.diff, bind_ok loads, loadDiff, bind_ok (compareRecord_whole whole same)]
    simp only [oldRead, currentRead, hunksRead, found_ok_bind, pure_run]
  · have read : tracker.reviewedVersion snapshot file ⟨[], old, content, hunks⟩ versions.base store =
        .ok ⟨versions.current, .uniform record.author⟩ store := by
      rw [reviewedVersion, bind_ok loads]
      simp only [whole, rebuilt, pure_run]
    rw [ReviewTracker.versions, baseRead, found_ok_bind, bind_ok read, pure_run, current]

end Whole

section Partially

variable {reviewed : Reviewed}
  (loads : loadRecord snapshot file store = .ok (.reviewed record) store)
  (covers : record.partialReview = some ⟨versions.base, reviewed⟩)
  (changes : reviewed.text ≠ versions.base)

include baseRead currentRead current changes in
theorem comparePartial_same (baseline : SnapshotId) :
    ∃ hunks, tracker.comparePartial snapshot file ⟨versions.base, reviewed⟩ baseline =
      .ok (.partially reviewed content (unifiedDiff tracker.differ (displayPath file.reviewPath)
        reviewed.text versions.current) hunks) := by
  have stays : replay tracker.differ versions.base reviewed versions.base = reviewed := if_pos rfl
  simp only [comparePartial, baseRead, currentRead, stays, bind, Except.bind, if_neg changes,
    ← current]
  exact ⟨_, rfl⟩

include baseRead currentRead current covers changes in
theorem compareRecord_partially (store : MarkStore) :
    ∃ hunks, tracker.compareRecord snapshot file (.reviewed record) store =
      .ok (.partially reviewed content (unifiedDiff tracker.differ (displayPath file.reviewPath)
        reviewed.text versions.current) hunks) store := by
  obtain ⟨hunks, compared⟩ :=
    comparePartial_same baseRead currentRead current changes record.baselineCommitId
  exact ⟨hunks, by simp only [compareRecord, covers, compared, found_ok]⟩

include baseRead currentRead current loads covers changes in
theorem status_partially (valid : tracker.differ.Valid) (quiet : tracker.differ.Quiet) :
    ∃ state, tracker.status snapshot file store = .ok state store ∧
      state.status =
        if reviewed.text = versions.current then .reviewed else .partiallyReviewed := by
  obtain ⟨hunks, compared⟩ :=
    compareRecord_partially baseRead currentRead current covers changes store
  refine ⟨_, status_of_compared (by rw [compare, bind_ok loads, compared]), ?_⟩
  simp only [ReviewComparison.state, unifiedDiff_eq_nil valid quiet]
  split_ifs <;> rfl

include baseRead currentRead current loads covers changes in
theorem readsAs_partially : tracker.ReadsAs snapshot file versions store reviewed := by
  obtain ⟨hunks, compared⟩ :=
    compareRecord_partially baseRead currentRead current covers changes store
  generalize unifiedDiff tracker.differ (displayPath file.reviewPath) reviewed.text
    versions.current = unified at compared
  refine ⟨⟨unified, some reviewed.text, content, hunks⟩, ?_, ?_⟩
  · rw [ReviewTracker.diff, bind_ok loads, loadDiff, bind_ok compared]
    rfl
  · have read : ∀ diff, tracker.reviewedVersion snapshot file diff versions.base store =
        .ok reviewed store := by
      intro diff
      rw [reviewedVersion, bind_ok loads]
      simp only [covers, pure_run, replay, ↓reduceIte]
    rw [ReviewTracker.versions, baseRead, found_ok_bind, bind_ok (read _), pure_run, current]

end Partially

section Unreviewed

variable (loads : loadRecord snapshot file store = .ok .unreviewed store)

include loads in
theorem status_unreviewed :
    tracker.status snapshot file store = .ok (.unreviewed file.statistics none) store := by
  have compared : tracker.compare snapshot file store = .ok (.unreviewed none) store := by
    rw [compare, bind_ok loads]
    rfl
  rw [status_of_compared compared]
  rfl

include baseRead currentRead current loads in
theorem readsAs_unreviewed {unified : Bytes}
    (open_ : tracker.repository.diff snapshot file = .ok unified) :
    tracker.ReadsAs snapshot file versions store ⟨versions.base, .reviewerOnly⟩ := by
  obtain ⟨old, oldRead⟩ : ∃ old,
      tracker.baseFileContent snapshot file.oldPath file.oldKind = .ok old := by
    rw [baseText] at baseRead
    cases read : tracker.baseFileContent snapshot file.oldPath file.oldKind with
    | ok old => exact ⟨old, rfl⟩
    | error error =>
      rw [read] at baseRead
      cases baseRead
  have compared : tracker.compareRecord snapshot file .unreviewed store =
      .ok (.unreviewed none) store := rfl
  refine ⟨⟨unified, old, content,
    .unreviewed (tracker.repository.parseFileDiff unified file)⟩, ?_, ?_⟩
  · rw [ReviewTracker.diff, bind_ok loads, loadDiff, bind_ok compared]
    simp only [open_, oldRead, currentRead, found_ok_bind, pure_run]
  · have read : ∀ diff, tracker.reviewedVersion snapshot file diff versions.base store =
        .ok ⟨versions.base, .reviewerOnly⟩ store := by
      intro diff
      rw [reviewedVersion, bind_ok loads]
      rfl
    rw [ReviewTracker.versions, baseRead, found_ok_bind, bind_ok (read _), pure_run, current]

end Unreviewed

end Read

/-- The content a whole-file mark shows as reviewed is the current file's, when the
file is still there. -/
theorem fileContent_reviewPath {path : RepoPath} (present : file.newPath = some path)
    (isFile : file.newKind = .file) :
    tracker.fileContent snapshot.identity.snapshotId (some file.reviewPath)
        (if file.oldKind = .file then file.oldKind else file.newKind) =
      tracker.currentContent snapshot file := by
  have reviewed : file.reviewPath = path := by simp [ChangedFile.reviewPath, present]
  have kind : (if file.oldKind = .file then file.oldKind else file.newKind) = .file := by
    split_ifs with old
    · exact old
    · exact isFile
  rw [currentContent, kind, isFile, present, reviewed]

/-- What the status says of a reviewed text. A text that equals both the base and the
current file is reviewed. -/
structure StatusTells (d : Differ) (versions : Versions) (text : Bytes) (status : ReviewStatus) :
    Prop where
  reviewed_iff : status = .reviewed ↔ text = versions.current
  unreviewed_iff : status = .unreviewed ↔ text = versions.base ∧ versions.base ≠ versions.current
  otherwise : text ≠ versions.current → text ≠ versions.base →
    status = .partiallyReviewed ∧ d.changes text versions.current ≠ []

theorem StatusTells.current {d : Differ} : StatusTells d versions versions.current .reviewed where
  reviewed_iff := by simp
  unreviewed_iff := by
    simp only [reduceCtorEq, false_iff, not_and, not_not]
    exact Eq.symm
  otherwise := fun differs => absurd rfl differs

theorem StatusTells.base {d : Differ} (moved : versions.base ≠ versions.current) :
    StatusTells d versions versions.base .unreviewed where
  reviewed_iff := by simp [moved]
  unreviewed_iff := by simp [moved]
  otherwise := fun _ differs => absurd rfl differs

theorem StatusTells.partially {d : Differ} (valid : d.Valid) {text : Bytes}
    (notCurrent : text ≠ versions.current) (notBase : text ≠ versions.base) :
    StatusTells d versions text .partiallyReviewed where
  reviewed_iff := by simp [notCurrent]
  unreviewed_iff := by simp [notBase]
  otherwise := fun _ _ => ⟨rfl, fun same => notCurrent (valid.eq_of_nil same)⟩

/-! One modified file of a Git working tree, for the runs below. -/

/-- A repository that holds one version of the file at its base and one at every
snapshot, and reads the one hunk of any diff as `rows`. -/
def oneFile (base current : Bytes) (rows : List DiffRow) : ReviewTracker where
  differ := trimmedDiffer
  repository :=
    { currentIdentity := .ok (.git "ba" "5e")
      diff := fun _ _ => .ok (unifiedDiff trimmedDiffer "f" base current)
      fileAt := fun _ _ => .ok current
      baseFileAt := fun _ _ => .ok base
      interdiff := fun _ _ _ => .ok (.diff [])
      compareBaselines := fun _ _ => .ok fun _ => some (.compared fun _ => none)
      parseFileDiff := fun diff _ => if diff = [] then [] else rows }

def oneFileChanged : ChangedFile := .text (some (bytesOf "f")) (bytesOf "f")

def oneFileSnapshot : Snapshot := ⟨.git "ba" "5e", [oneFileChanged]⟩

/-- A line reviewed before the file went back to its base: accepting that it went
leaves a text that equals base and current file, and the path reads as reviewed, not
as unreviewed. -/
theorem accepted_back_to_base :
    let tracker := oneFile (bytesOf "a\n") (bytesOf "a\n")
      [.hunk 1 1 1 1, .delete 1 "b", .add 1 "a"]
    tracker.differ.Valid ∧ tracker.differ.Quiet ∧
    tracker.repository.interdiff "5e" oneFileSnapshot oneFileChanged.reviewPath = .ok (.diff []) ∧
    ∃ before diff opened versions edited version after state,
      tracker.acceptLines oneFileSnapshot oneFileChanged "now" ⟨∅, {0}⟩ .reviewer before =
        .ok .marked after ∧
      tracker.diff oneFileSnapshot oneFileChanged before = .ok diff opened ∧
      tracker.versions oneFileSnapshot oneFileChanged diff opened = .ok versions edited ∧
      versions.review.EditsTo tracker.differ version ∧
      storeVersion oneFileSnapshot oneFileChanged "now" versions version edited = .ok () after ∧
      tracker.status oneFileSnapshot oneFileChanged after = .ok state after ∧
      versions.review.textOf version = versions.base ∧ state.status ≠ .unreviewed := by
  let record : ReviewRecord := ⟨bytesOf "f", "01", "then", .reviewer,
    some ⟨bytesOf "a\n", ⟨bytesOf "b\n", .reviewerOnly⟩⟩⟩
  let before := MarkStore.empty.write "ba" record
  have accepted : HunkReview.acceptLines trimmedDiffer
      ⟨bytesOf "a\n", bytesOf "b\n", bytesOf "a\n", .reviewerOnly⟩ ⟨∅, {0}⟩ .reviewer =
        some (.current .reviewerOnly) := by decide
  refine ⟨trimmedDiffer_valid, trimmedDiffer_quiet, rfl, before, _, before, ⟨bytesOf "a\n", ⟨bytesOf "b\n", .reviewerOnly⟩, bytesOf "a\n"⟩, before,
    .current .reviewerOnly, before.write "ba" ⟨bytesOf "f", "5e", "now", .reviewer, none⟩,
    .reviewed, edit_eq_marked.mpr ⟨_, rfl, rfl, rfl, _, _, _, _, _, rfl, rfl,
      congrArg Except.ok accepted, rfl⟩, rfl, rfl, .acceptLines ⟨∅, {0}⟩ .reviewer accepted, rfl, rfl, rfl, by decide⟩

/-- A stored version reads back with its text and its authors, and the status tells how
it relates to the base and to the current file. -/
theorem stored_version_survives {now : String} {diff : ReviewDiff}
    {before opened edited after : MarkStore} {unified : Bytes}
    (valid : tracker.differ.Valid) (quiet : tracker.differ.Quiet)
    (loaded : tracker.diff snapshot file before = .ok diff opened)
    (read : tracker.versions snapshot file diff opened = .ok versions edited)
    (edit : versions.review.EditsTo tracker.differ version)
    (stored : storeVersion snapshot file now versions version edited = .ok () after)
    (same : tracker.repository.interdiff snapshot.identity.snapshotId snapshot file.reviewPath =
      .ok (.diff []))
    (readable : tracker.repository.diff snapshot file = .ok unified)
    (shown : (∃ attribution author, version = .current attribution ∧
        attribution.uniformAuthor = some author) →
      ∃ old, tracker.fileContent snapshot.identity.snapshotId (some file.reviewPath)
        (if file.oldKind = .file then file.oldKind else file.newKind) = .ok old) :
    (∃ reviewed, tracker.ReadsAs snapshot file versions after reviewed ∧
      reviewed.text = versions.review.textOf version ∧
      (∀ line, Adds tracker.differ versions.base reviewed.text line →
        reviewed.attribution.addedBy line = version.attribution.addedBy line) ∧
      ∀ line, Removes tracker.differ versions.base reviewed.text line →
        reviewed.attribution.removedBy line = version.attribution.removedBy line) ∧
    ∃ state, tracker.status snapshot file after = .ok state after ∧
      StatusTells tracker.differ versions (versions.review.textOf version) state.status := by
  have currentRead := diff_newContent loaded
  obtain ⟨baseRead, current⟩ := versions_read read
  have loads := loadRecord_storeVersion stored
  obtain ⟨attribution, rfl, mixed⟩ | ⟨rfl, moved⟩ | ⟨reviewed, rfl, notCurrent, notBase⟩ :=
    edit.encoding quiet
  · cases one : attribution.uniformAuthor with
    | some author =>
      obtain ⟨old, oldRead⟩ := shown ⟨attribution, author, rfl, one⟩
      have uniform := Attribution.uniformAuthor_eq_some.mp one
      simp only [storedRecord, one] at loads
      refine ⟨⟨_, readsAs_whole baseRead currentRead current loads rfl same oldRead, rfl, ?_, ?_⟩,
        _, status_whole loads rfl same, .current⟩
      all_goals exact fun line _ => by rw [uniform, ReviewedVersion.attribution]
    | none =>
      have changes : versions.current ≠ versions.base := mixed one
      simp only [storedRecord, one] at loads
      obtain ⟨state, shows, status⟩ := status_partially baseRead currentRead current loads rfl
        changes valid quiet
      rw [if_pos rfl] at status
      exact ⟨⟨_, readsAs_partially baseRead currentRead current loads rfl changes, rfl,
        fun _ _ => rfl, fun _ _ => rfl⟩, state, shows, by rw [status]; exact .current⟩
  · exact ⟨⟨_, readsAs_unreviewed baseRead currentRead current loads readable, rfl,
      fun _ _ => rfl, fun _ _ => rfl⟩, _, status_unreviewed loads, .base moved⟩
  · obtain ⟨state, shows, status⟩ := status_partially baseRead currentRead current loads rfl
      notBase valid quiet
    rw [if_neg (show reviewed.text ≠ versions.current from notCurrent)] at status
    exact ⟨⟨_, readsAs_partially baseRead currentRead current loads rfl notBase, rfl,
      fun _ _ => rfl, fun _ _ => rfl⟩, state, shows,
      by rw [status]; exact .partially valid notCurrent notBase⟩

theorem stored_version_survives_whole :
    let tracker := oneFile (bytesOf "a\n") (bytesOf "b\n") [.hunk 1 1 1 1, .delete 1 "a", .add 1 "b"]
    let versions : Versions := ⟨bytesOf "a\n", ⟨bytesOf "a\n", .reviewerOnly⟩, bytesOf "b\n"⟩
    let after := MarkStore.empty.write "ba" ⟨bytesOf "f", "5e", "now", .jev, none⟩
    (∃ reviewed, tracker.ReadsAs oneFileSnapshot oneFileChanged versions after reviewed ∧
      reviewed.text = bytesOf "b\n" ∧
      (∀ line, Adds tracker.differ versions.base reviewed.text line →
        reviewed.attribution.addedBy line = .jev) ∧
      ∀ line, Removes tracker.differ versions.base reviewed.text line →
        reviewed.attribution.removedBy line = .jev) ∧
    ∃ state, tracker.status oneFileSnapshot oneFileChanged after = .ok state after ∧
      StatusTells tracker.differ versions (bytesOf "b\n") state.status := by
  intro tracker versions after
  obtain ⟨diff, loaded, shows⟩ : ∃ diff : ReviewDiff,
      tracker.diff oneFileSnapshot oneFileChanged .empty = .ok diff .empty ∧
        diff.newContent = some (bytesOf "b\n") := ⟨_, rfl, rfl⟩
  have read : tracker.versions oneFileSnapshot oneFileChanged diff .empty =
      .ok versions .empty := by
    change _ = EStateM.Result.ok (Versions.mk _ _ ((some (bytesOf "b\n")).getD [])) _
    rw [← shows]
    rfl
  have edit : versions.review.EditsTo tracker.differ (.current (.uniform .jev)) :=
    .acceptLines ⟨{0}, {0}⟩ .jev (by decide)
  have stored : storeVersion oneFileSnapshot oneFileChanged "now" versions (.current (.uniform .jev))
      .empty = .ok () after := rfl
  exact stored_version_survives trimmedDiffer_valid trimmedDiffer_quiet loaded read edit stored rfl rfl
    fun _ => ⟨some (bytesOf "b\n"), rfl⟩

end ProgressiveReviewer.Marks.ReviewTracker
