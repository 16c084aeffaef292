import ProgressiveReviewer.Marks.Files

/-! A stored record reads back as it was written, an unknown one is never read as a mark. -/

namespace ProgressiveReviewer.Marks

open Library Hunks

namespace ReviewStore

variable {hash : RepoPath → String} {disk : Disk} {unit : ReviewUnit} {path : RepoPath}

/-- Store one complete review mark. -/
def markFile (hash : RepoPath → String) (disk : Disk) (unit : ReviewUnit) (path : RepoPath)
    (baselineCommitId reviewedAt : String) (author : MarkAuthor) (stamp : String) : Script :=
  storeMarkFiles hash disk unit ⟨path, baselineCommitId, reviewedAt, author, none⟩ stamp

/-- Store a mark that covers only some lines of one path. -/
def markPartialFile (hash : RepoPath → String) (disk : Disk) (unit : ReviewUnit) (path : RepoPath)
    (baselineCommitId reviewedAt : String) (review : PartialReview) (stamp : String) : Script :=
  storeMarkFiles hash disk unit
    ⟨path, baselineCommitId, reviewedAt, review.reviewed.attribution.default, some review⟩ stamp

theorem validateMark_eq_ok {commit : String} : validateMark unit path commit = .ok () ↔
    validateReviewUnit unit = .ok () ∧ validateCommit commit = .ok () ∧
      validatePath path = .ok () := by
  simp only [validateMark, except_bind_eq_ok]
  exact ⟨fun ⟨_, unitOk, _, commitOk, pathOk⟩ => ⟨unitOk, commitOk, pathOk⟩,
    fun ⟨unitOk, commitOk, pathOk⟩ => ⟨(), unitOk, (), commitOk, pathOk⟩⟩

theorem validateTarget_eq_ok : validateTarget unit path = .ok () ↔
    validateReviewUnit unit = .ok () ∧ validatePath path = .ok () := by
  simp only [validateTarget, except_bind_eq_ok]
  exact ⟨fun ⟨_, unitOk, pathOk⟩ => ⟨unitOk, pathOk⟩, fun ⟨unitOk, pathOk⟩ => ⟨(), unitOk, pathOk⟩⟩

/-- What a mark that goes through does to the records. -/
theorem storeMarkFiles_eq_ok {record : ReviewRecord} {stamp : String}
    (stored : (storeMarkFiles hash disk unit record stamp).outcome = .ok ()) :
    validateMark unit record.path record.baselineCommitId = .ok () ∧
      (storeMarkFiles hash disk unit record stamp).steps =
        [.createDirectory unit, .other "read review record"] ++
          atomicWrite "write review record" unit (fileName hash record.path)
            (some (StoredRecord.new unit record).toJson) ++ stampMarks unit stamp := by
  unfold storeMarkFiles at stored ⊢
  split at stored
  · cases stored
  · next valid =>
    refine ⟨valid, ?_⟩
    unfold writeRecord at stored ⊢
    dsimp only at stored ⊢
    split_ifs at stored ⊢
    · cases stored
    · rfl

theorem record_storeMarkFiles {record : ReviewRecord} {stamp : String}
    (stored : (storeMarkFiles hash disk unit record stamp).outcome = .ok ()) :
    (disk.after (storeMarkFiles hash disk unit record stamp).steps).record unit
      (fileName hash record.path) = some (some (StoredRecord.new unit record).toJson) := by
  rw [(storeMarkFiles_eq_ok stored).2]
  simp only [atomicWrite, prepareWrite, stampMarks, Disk.after, List.cons_append, List.nil_append,
    List.foldl_cons, List.foldl_nil, Disk.record_apply, FileStep.touches, FileStep.leaves,
    reduceCtorEq, if_false, if_true]

theorem loadFile_eq {stored : StoredRecord} (unitOk : validateReviewUnit unit = .ok ())
    (pathOk : validatePath path = .ok ())
    (read : readStored (disk.record unit (fileName hash path)) = some stored) :
    loadFile hash disk unit path = .ok (stored.loaded unit path) := by
  rw [loadFile, validateTarget_eq_ok.mpr ⟨unitOk, pathOk⟩, read]
  rfl

theorem loadFile_storeMarkFiles {record : ReviewRecord} {stamp : String}
    (fits : StoredRecord.Fits record)
    (canonical : ∀ review, record.partialReview = some review →
      review.reviewed.attribution.Canonical)
    (stored : (storeMarkFiles hash disk unit record stamp).outcome = .ok ()) :
    loadFile hash (disk.after (storeMarkFiles hash disk unit record stamp).steps) unit
      record.path = .ok (.reviewed record) := by
  obtain ⟨unitOk, commitOk, pathOk⟩ := validateMark_eq_ok.mp (storeMarkFiles_eq_ok stored).1
  have read : readStored ((disk.after (storeMarkFiles hash disk unit record stamp).steps).record
      unit (fileName hash record.path)) = some (.new unit record) := by
    rw [record_storeMarkFiles stored]
    exact StoredRecord.ofJson_toJson_new fits
  rw [loadFile_eq unitOk pathOk read, StoredRecord.loaded_new ⟨commitOk, fits, canonical⟩]

/-- A line that stored runs of a partial mark cover has one author once loaded. -/
theorem loaded_runs {stored : StoredRecord} {record : ReviewRecord} {review : PartialReview}
    (loaded : stored.loaded unit path = .reviewed record)
    (covers : record.partialReview = some review) :
    ∀ runs ∈ [review.reviewed.attribution.removed, review.reviewed.attribution.added],
      (∀ run ∈ runs, run.extent.start < run.extent.stop) ∧
        runs.Pairwise (fun a b => a.extent.stop ≤ b.extent.start) ∧
        ∀ line author other, Run.Covers runs line author → Run.Covers runs line other →
          author = other := by
  have attribution : ∃ written : StoredAttribution,
      review.reviewed.attribution = written.toAttribution := by
    unfold StoredRecord.loaded at loaded
    split_ifs at loaded
    split at loaded
    · next decodedPath partialReview _ decoded =>
      split_ifs at loaded
      cases loaded
      obtain rfl : partialReview = some review := covers
      unfold StoredRecord.decodePartial at decoded
      split_ifs at decoded
      · cases decoded
      · obtain ⟨kept, _, decoded⟩ := Option.bind_eq_some_iff.mp decoded
        obtain ⟨base, _, decoded⟩ := Option.bind_eq_some_iff.mp decoded
        obtain ⟨text, _, decoded⟩ := Option.bind_eq_some_iff.mp decoded
        cases decoded
        exact ⟨kept.attribution, rfl⟩
    · cases loaded
  obtain ⟨written, same⟩ := attribution
  have apart : ∀ entries : List StoredAuthoredLines, ∀ runs, runs = StoredAttribution.entries entries →
      (∀ run ∈ runs, run.extent.start < run.extent.stop) ∧
        runs.Pairwise (fun a b => a.extent.stop ≤ b.extent.start) ∧
        ∀ line author other, Run.Covers runs line author → Run.Covers runs line other →
          author = other := by
    rintro entries runs rfl
    obtain ⟨nonempty, sorted⟩ := StoredAttribution.entries_apart entries
    exact ⟨nonempty, sorted, fun _ _ _ one other => one.unique sorted other⟩
  rw [same]
  intro runs mem
  rcases List.mem_pair.mp mem with rfl | rfl
  · exact apart written.removed _ rfl
  · exact apart written.added _ rfl

section Samples

/-- A file name for the one path of the samples. -/
def oneName (_ : RepoPath) : String := "record"

/-- A partial mark of a path that is no UTF-8 text. -/
def sampleReview : PartialReview :=
  ⟨[97, 10], ⟨[98, 10, 255], ⟨.jev, [⟨⟨0, 1⟩, .reviewer⟩], [⟨⟨0, 2⟩, .explore "answer"⟩]⟩⟩⟩

theorem canonical_sampleReview : sampleReview.reviewed.attribution.Canonical :=
  ⟨⟨by decide, by decide, by decide⟩, ⟨by decide, by decide, by decide⟩⟩

/-- A record as a file may hold it, with the given runs of added lines. -/
def written (version : Int) (added : List Json) : Json :=
  .object [("schema_version", .integer version), ("review_unit", .text "unit"),
    ("path_encoding", .text "utf8"), ("path", .text "a"), ("baseline_commit_id", .text "ab"),
    ("reviewed_at", .text "2024-01-01T00:00:00Z"),
    ("partial", .object [("base", .text ""), ("reviewed", .text "YQpiCg=="),
      ("attribution", .object [("added", .array added)])])]

/-- Two touching runs of one author. -/
def touching : List Json :=
  [.object [("start", .integer 1), ("end", .integer 2), ("author", .object [("kind", .text "jev")])],
    .object [("start", .integer 0), ("end", .integer 1),
      ("author", .object [("kind", .text "jev")])]]

def holding (json : Json) : Disk :=
  Disk.empty.apply (.put "unit" "record.json" (some json))

end Samples

end ReviewStore

end ProgressiveReviewer.Marks
