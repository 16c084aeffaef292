import ProgressiveReviewer.Hunks.Review
import ProgressiveReviewer.Library.Failing

/-! The review marks of one repository on disk, shared by every reviewer process
(`review-store/src/checkpoint.rs`). A record file stands for what it decodes to; its
encoding, the stamp that tells other processes of a change and the locks are left to
the store. -/

namespace ProgressiveReviewer.Marks

open Library Hunks

/-- The stable identifier that groups review marks. -/
abbrev ReviewUnit := String

inductive Error where
  /-- A key that names no state on disk. -/
  | invalidStateKey (field : String)
  | repository (detail : String)
  | report (message : String)
  deriving DecidableEq, Repr

/-- The reviewed version of a file whose mark covers only some of its lines,
and the base it was built on. -/
structure PartialReview where
  base : Bytes
  reviewed : Reviewed
  deriving DecidableEq, Repr

/-- One valid stored review mark. -/
structure ReviewRecord where
  path : RepoPath
  baselineCommitId : String
  reviewedAt : String
  /-- Who marked the whole file; the default author of a mark of some lines. -/
  author : MarkAuthor
  partialReview : Option PartialReview
  deriving DecidableEq, Repr

/-- The result of loading one path record. -/
inductive LoadResult where
  | unreviewed
  | reviewed (record : ReviewRecord)
  | unknownSchema
  deriving DecidableEq, Repr

/-- One record file. Each write puts a new file in place of the old one. -/
structure RecordFile where
  written : Nat
  content : LoadResult
  deriving DecidableEq, Repr

structure MarkStore where
  files : ReviewUnit → RepoPath → Option RecordFile
  /-- How many files were written so far. -/
  writes : Nat
  numbered : ∀ unit path file, files unit path = some file → file.written < writes

abbrev MarksM := EStateM Error MarkStore

namespace MarkStore

def empty : MarkStore := ⟨fun _ _ => none, 0, nofun⟩

variable (store : MarkStore) (unit : ReviewUnit) (path : RepoPath)

def content : LoadResult :=
  match store.files unit path with
  | some file => file.content
  | none => .unreviewed

/-- Put a new record file in place. -/
def write (record : ReviewRecord) : MarkStore where
  files := fun u p =>
    if u = unit ∧ p = record.path then some ⟨store.writes, .reviewed record⟩ else store.files u p
  writes := store.writes + 1
  numbered := by
    intro u p file found
    split at found
    · cases found
      exact Nat.lt_succ_self _
    · exact Nat.lt_succ_of_lt (store.numbered u p file found)

/-- Remove a record file; a missing one is success. -/
def remove : MarkStore where
  files := fun u p => if u = unit ∧ p = path then none else store.files u p
  writes := store.writes
  numbered := by
    intro u p file found
    split at found
    · cases found
    · exact store.numbered u p file found

/-- Remove every record of one review. -/
def removeAll : MarkStore where
  files := fun u p => if u = unit then none else store.files u p
  writes := store.writes
  numbered := by
    intro u p file found
    split at found
    · cases found
    · exact store.numbered u p file found

@[simp] theorem content_write (record : ReviewRecord) :
    (store.write unit record).content unit record.path = .reviewed record := by
  simp [content, write]

@[simp] theorem content_remove : (store.remove unit path).content unit path = .unreviewed := by
  simp [content, remove]

@[simp] theorem remove_writes : (store.remove unit path).writes = store.writes := rfl

theorem files_write (record : ReviewRecord) (other : RepoPath) :
    (store.write unit record).files unit other =
      if other = record.path then some ⟨store.writes, .reviewed record⟩
      else store.files unit other := by
  simp [write]

theorem files_remove (other : RepoPath) :
    (store.remove unit path).files unit other =
      if other = path then none else store.files unit other := by
  simp [remove]

end MarkStore

def isLowerOrDigit (char : Char) : Bool := char.isLower || char.isDigit

def isLowerHex (char : Char) : Bool := char.isDigit || ('a' ≤ char && char ≤ 'f')

def validateReviewUnit (unit : ReviewUnit) : Except Error Unit :=
  if unit ≠ "" ∧ unit.toList.all isLowerOrDigit then .ok ()
  else .error (.invalidStateKey "review unit")

def validateCommit (commitId : String) : Except Error Unit :=
  if commitId ≠ "" ∧ commitId.toList.all isLowerHex then .ok ()
  else .error (.invalidStateKey "commit ID")

/-- A repository-relative path without empty, `.` or `..` parts. -/
def validatePath (path : RepoPath) : Except Error Unit :=
  let parts := path.splitOnP (· == 47)
  if path = [] ∨ path.head? = some 47 ∨ parts.any fun part => decide (part ∈ [[], [46], [46, 46]])
  then .error (.invalidStateKey "path")
  else .ok ()

namespace ReviewStore

/-- Lock the marks of one review against every reviewer process. -/
def lockMarks (unit : ReviewUnit) : MarksM Unit := found (validateReviewUnit unit)

def storeMark (unit : ReviewUnit) (path : RepoPath) (baselineCommitId reviewedAt : String)
    (author : MarkAuthor) (partialReview : Option PartialReview) : MarksM ReviewRecord := do
  found (validateReviewUnit unit)
  found (validateCommit baselineCommitId)
  found (validatePath path)
  let record : ReviewRecord := ⟨path, baselineCommitId, reviewedAt, author, partialReview⟩
  modify fun store => store.write unit record
  return record

/-- Store one complete review mark, written at `reviewedAt`. -/
def mark (unit : ReviewUnit) (path : RepoPath) (baselineCommitId reviewedAt : String)
    (author : MarkAuthor) : MarksM ReviewRecord :=
  storeMark unit path baselineCommitId reviewedAt author none

/-- Store a mark that covers only some lines of one path. -/
def markPartial (unit : ReviewUnit) (path : RepoPath) (baselineCommitId reviewedAt : String)
    (review : PartialReview) : MarksM ReviewRecord :=
  storeMark unit path baselineCommitId reviewedAt review.reviewed.attribution.default (some review)

/-- Load and validate one review mark. -/
def load (unit : ReviewUnit) (path : RepoPath) : MarksM LoadResult := do
  found (validateReviewUnit unit)
  found (validatePath path)
  return (← get).content unit path

/-- Remove one review mark. A missing record is success. -/
def unreview (unit : ReviewUnit) (path : RepoPath) : MarksM Unit := do
  found (validateReviewUnit unit)
  found (validatePath path)
  modify fun store => store.remove unit path

/-- Remove the review mark of one path that was written at `reviewedAt`, and leave a
mark written since, by a reviewer of another workspace, in place. -/
def unreviewExpired (unit : ReviewUnit) (path : RepoPath) (reviewedAt : String) : MarksM Unit := do
  match ← load unit path with
  | .reviewed record => if record.reviewedAt = reviewedAt then unreview unit path else return ()
  | _ => return ()

/-- Clear all file review marks for one logical review. -/
def unreviewAll (unit : ReviewUnit) : MarksM Unit := do
  found (validateReviewUnit unit)
  modify fun store => store.removeAll unit

variable {unit : ReviewUnit} {path : RepoPath} {store store' : MarkStore}

theorem load_eq_ok {content : LoadResult} :
    load unit path store = .ok content store' ↔
      validateReviewUnit unit = .ok () ∧ validatePath path = .ok () ∧
        content = store.content unit path ∧ store' = store := by
  simp only [load, bind_eq_ok, found_eq_ok]
  constructor
  · rintro ⟨_, _, ⟨unitOk, rfl⟩, _, _, ⟨pathOk, rfl⟩, _, _, got, returned⟩
    cases got
    cases returned
    exact ⟨unitOk, pathOk, rfl, rfl⟩
  · rintro ⟨unitOk, pathOk, rfl, rfl⟩
    exact ⟨(), _, ⟨unitOk, rfl⟩, (), _, ⟨pathOk, rfl⟩, store', store', rfl, rfl⟩

theorem storeMark_eq_ok {baselineCommitId reviewedAt : String} {author : MarkAuthor}
    {partialReview : Option PartialReview} {record : ReviewRecord} :
    storeMark unit path baselineCommitId reviewedAt author partialReview store =
        .ok record store' ↔
      validateReviewUnit unit = .ok () ∧ validateCommit baselineCommitId = .ok () ∧
        validatePath path = .ok () ∧
        record = ⟨path, baselineCommitId, reviewedAt, author, partialReview⟩ ∧
        store' = store.write unit record := by
  simp only [storeMark, bind_eq_ok, found_eq_ok]
  constructor
  · rintro ⟨_, _, ⟨unitOk, rfl⟩, _, _, ⟨commitOk, rfl⟩, _, _, ⟨pathOk, rfl⟩, _, _, wrote, returned⟩
    cases wrote
    cases returned
    exact ⟨unitOk, commitOk, pathOk, rfl, rfl⟩
  · rintro ⟨unitOk, commitOk, pathOk, rfl, rfl⟩
    exact ⟨(), _, ⟨unitOk, rfl⟩, (), _, ⟨commitOk, rfl⟩, (), _, ⟨pathOk, rfl⟩, (), _, rfl, rfl⟩

theorem unreview_eq_ok {result : Unit} :
    unreview unit path store = .ok result store' ↔
      validateReviewUnit unit = .ok () ∧ validatePath path = .ok () ∧
        store' = store.remove unit path := by
  simp only [unreview, bind_eq_ok, found_eq_ok]
  constructor
  · rintro ⟨_, _, ⟨unitOk, rfl⟩, _, _, ⟨pathOk, rfl⟩, removed⟩
    cases removed
    exact ⟨unitOk, pathOk, rfl⟩
  · rintro ⟨unitOk, pathOk, rfl⟩
    exact ⟨(), _, ⟨unitOk, rfl⟩, (), _, ⟨pathOk, rfl⟩, rfl⟩

theorem moves_load {step : MarkStore → MarkStore → Prop} : Moves step (load unit path) :=
  (moves_found _).bind fun _ => (moves_found _).bind fun _ => moves_get.bind fun _ => moves_pure _

theorem moves_unreview {step : MarkStore → MarkStore → Prop}
    (removes : ∀ store, step store (store.remove unit path)) : Moves step (unreview unit path) :=
  (moves_found _).bind fun _ => (moves_found _).bind fun _ => moves_modify removes

theorem moves_storeMark {step : MarkStore → MarkStore → Prop} {baselineCommitId reviewedAt : String}
    {author : MarkAuthor} {partialReview : Option PartialReview}
    (writes : ∀ store, step store (store.write unit
      ⟨path, baselineCommitId, reviewedAt, author, partialReview⟩)) :
    Moves step (storeMark unit path baselineCommitId reviewedAt author partialReview) :=
  (moves_found _).bind fun _ => (moves_found _).bind fun _ => (moves_found _).bind fun _ =>
    (moves_modify writes).bind fun _ => moves_pure _

end ReviewStore

end ProgressiveReviewer.Marks
