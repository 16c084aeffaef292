import Mathlib.Data.String.Basic
import ProgressiveReviewer.Library.SortedMap
import ProgressiveReviewer.Marks.Record

/-! The record files and marks stamps of one repository, and the store's operations as
the file steps they take (`review-store/src/checkpoint.rs`, `lib.rs`,
`workspace_state.rs`). An operation that fails at a file step leaves what the steps
before it did. -/

namespace ProgressiveReviewer.Marks

open Library Hunks

/-- The JSON value a file holds; none where its text is no JSON. -/
abbrev FileContent := Option Json

structure Disk where
  directories : SortedMap ReviewUnit (SortedMap String FileContent)
  stamps : SortedMap ReviewUnit String

namespace Disk

def empty : Disk := ⟨.empty, .empty⟩

variable (disk : Disk) (unit : ReviewUnit)

def directory : SortedMap String FileContent := (disk.directories.lookup unit).getD .empty

def record (name : String) : Option FileContent := (disk.directory unit).lookup name

def stamp : Option String := disk.stamps.lookup unit

end Disk

/-- What one file operation does to record files and stamps. -/
inductive FileStep where
  /-- Leaves the records and stamps as they are. -/
  | other (operation : String)
  /-- Make the directory of records, where it is missing. -/
  | createDirectory (unit : ReviewUnit)
  /-- Rename a record file into place. -/
  | put (unit : ReviewUnit) (name : String) (content : FileContent)
  | remove (unit : ReviewUnit) (name : String)
  /-- Remove an emptied directory of records. -/
  | removeDirectory (unit : ReviewUnit)
  /-- Rename a new stamp into place. -/
  | stamp (unit : ReviewUnit) (value : String)

namespace Disk

def apply (disk : Disk) : FileStep → Disk
  | .other _ => disk
  | .createDirectory unit =>
    if disk.directories.contains unit then disk
    else { disk with directories := disk.directories.insert unit .empty }
  | .put unit name content => { disk with
      directories := disk.directories.insert unit ((disk.directory unit).insert name content) }
  | .remove unit name => { disk with
      directories := disk.directories.modify unit fun records => records.erase name }
  | .removeDirectory unit =>
    if (disk.directory unit).isEmpty
    then { disk with directories := disk.directories.erase unit } else disk
  | .stamp unit value => { disk with stamps := disk.stamps.insert unit value }

/-- The disk after some steps. -/
def after (disk : Disk) (steps : List FileStep) : Disk := steps.foldl apply disk

end Disk

inductive StoreFailure where
  | state (error : Error)
  /-- Two repository paths produced the same file name. -/
  | collision (file : String)
  deriving DecidableEq, Repr

/-- The file steps of an operation, and how it ends when none of them fails. -/
structure Script where
  steps : List FileStep
  outcome : Except StoreFailure Unit

namespace Script

def refused (error : Error) : Script := ⟨[], .error (.state error)⟩

/-- Go on with more steps after success. -/
def andThen (script : Script) (more : List FileStep) : Script :=
  match script.outcome with
  | .ok () => ⟨script.steps ++ more, .ok ()⟩
  | .error _ => script

end Script

namespace ReviewStore

/-- The new temporary file of an atomic write, up to its rename. -/
def prepareWrite (operation : String) (unit : ReviewUnit) : List FileStep :=
  [.createDirectory unit, .other "scan review state directory",
    .other operation, .other operation, .other operation, .other operation]

def atomicWrite (operation : String) (unit : ReviewUnit) (name : String) (content : FileContent) :
    List FileStep :=
  prepareWrite operation unit ++ [.put unit name content, .other "sync review state directory"]

/-- A new random stamp, renamed into place. -/
def stampMarks (unit : ReviewUnit) (value : String) : List FileStep :=
  [.other "stamp review marks", .other "create review state directory",
    .other "stamp review marks", .stamp unit value]

def readStored (content : Option FileContent) : Option StoredRecord :=
  content.bind fun json => json.bind StoredRecord.ofJson

section Files

-- The hash that names the record file of a path.
variable (hash : RepoPath → String)

def fileName (path : RepoPath) : String := hash path ++ ".json"

/-- Whether the file of a path holds the record of another one. -/
def collides (existing : Option StoredRecord) (path : RepoPath) : Bool :=
  existing.any fun existing => existing.hasKnownSchema && decide (existing.decodePath ≠ some path)

def writeRecord (disk : Disk) (unit : ReviewUnit) (record : ReviewRecord) : Script :=
  let name := fileName hash record.path
  let read := [.createDirectory unit, .other "read review record"]
  if collides (readStored (disk.record unit name)) record.path
  then ⟨read, .error (.collision name)⟩
  else ⟨read ++ atomicWrite "write review record" unit name
    (some (StoredRecord.new unit record).toJson), .ok ()⟩

def validateMark (unit : ReviewUnit) (path : RepoPath) (baselineCommitId : String) :
    Except Error Unit := do
  validateReviewUnit unit
  validateCommit baselineCommitId
  validatePath path

def validateTarget (unit : ReviewUnit) (path : RepoPath) : Except Error Unit := do
  validateReviewUnit unit
  validatePath path

def storeMarkFiles (disk : Disk) (unit : ReviewUnit) (record : ReviewRecord) (stamp : String) :
    Script :=
  match validateMark unit record.path record.baselineCommitId with
  | .error error => .refused error
  | .ok () => (writeRecord hash disk unit record).andThen (stampMarks unit stamp)

/-- Load and validate one review mark. -/
def loadFile (disk : Disk) (unit : ReviewUnit) (path : RepoPath) : Except Error LoadResult := do
  validateTarget unit path
  match readStored (disk.record unit (fileName hash path)) with
  | none => return .unreviewed
  | some stored => return stored.loaded unit path

def unreviewSteps (disk : Disk) (unit : ReviewUnit) (path : RepoPath) (stamp : String) :
    List FileStep :=
  let name := fileName hash path
  match disk.record unit name with
  | some _ => [.remove unit name, .other "sync review state directory"] ++ stampMarks unit stamp
  | none => [.other "remove review record"]

def unreviewFiles (disk : Disk) (unit : ReviewUnit) (path : RepoPath) (stamp : String) : Script :=
  match validateTarget unit path with
  | .error error => .refused error
  | .ok () => ⟨unreviewSteps hash disk unit path stamp, .ok ()⟩

def unreviewExpiredFiles (disk : Disk) (unit : ReviewUnit) (path : RepoPath) (reviewedAt : String)
    (stamp : String) : Script :=
  match loadFile hash disk unit path with
  | .error error => .refused error
  | .ok content =>
    let steps := match content with
      | .reviewed record =>
        if record.reviewedAt = reviewedAt then unreviewSteps hash disk unit path stamp else []
      | _ => []
    ⟨.other "read review record" :: steps, .ok ()⟩

/-- The order in which a directory lists its files. -/
structure Listing where
  order : List String → List String
  perm : ∀ names, (order names).Perm names

def unreviewAllFiles (disk : Disk) (unit : ReviewUnit) (listing : Listing) (stamp : String) :
    Script :=
  match validateReviewUnit unit, disk.directories.lookup unit with
  | .error error, _ => .refused error
  | .ok (), none => ⟨[.other "clear file review marks"], .ok ()⟩
  | .ok (), some records =>
    ⟨(listing.order records.keys).map (.remove unit ·) ++
      [.removeDirectory unit, .other "sync review state directory"] ++ stampMarks unit stamp,
      .ok ()⟩

end Files

/-- When the record of a file was written, read without the rest of it. -/
def markTime : FileContent → Option String
  | some (.object members) => (Json.required ["reviewed_at"] members).bind Json.asText
  | _ => none

/-- What merging one workspace's marks does. -/
structure Merge where
  steps : List FileStep
  /-- The directories and files that could not be read. -/
  unreadable : List (ReviewUnit × Option String)

section Merging

-- The time an RFC 3339 text stands for.
variable (rfc3339 : String → Option Int)

/-- Whether the mark written at `time` is later than the one written at `than`. Times this
reviewer cannot read compare as text. -/
def later (time than : String) : Bool :=
  match rfc3339 time, rfc3339 than with
  | some time, some than => than < time
  | _, _ => than < time

-- Which files of the shared state the merge can read.
variable (readable : ReviewUnit → String → Bool)

def isTemporary (name : String) : Bool := name.startsWith ".tmp-"

/-- Whether a record with this time takes the place of the shared one. -/
def replaces (disk : Disk) (unit : ReviewUnit) (name time : String) : Bool :=
  let kept := if readable unit name then (disk.record unit name).bind markTime else none
  kept.all fun kept => later rfc3339 time kept

def mergeEntry (disk : Disk) (unit : ReviewUnit) (entry : String × FileContent) : Merge :=
  if isTemporary entry.1 then ⟨[], []⟩
  else match markTime entry.2 with
    | none => ⟨[.other "read review mark"], [(unit, some entry.1)]⟩
    | some time =>
      if replaces rfc3339 readable disk unit entry.1 time
      then ⟨.other "read review mark" :: atomicWrite "merge review mark" unit entry.1 entry.2, []⟩
      else ⟨[.other "read review mark"], []⟩

def mergeEntries (unit : ReviewUnit) : List (String × FileContent) → Disk → Merge
  | [], _ => ⟨[], []⟩
  | entry :: rest, disk =>
    let first := mergeEntry rfc3339 readable disk unit entry
    let more := mergeEntries unit rest (disk.after first.steps)
    ⟨first.steps ++ more.steps, first.unreadable ++ more.unreadable⟩

/-- Whether a step renames a record into place. -/
def writes : FileStep → Bool
  | .put .. => true
  | _ => false

/-- Merge the marks of one review; its stamp changes when a mark went in. -/
def mergeUnit (stamp : ReviewUnit → String) (disk : Disk) (unit : ReviewUnit)
    (records : SortedMap String FileContent) : Merge :=
  match validateReviewUnit unit with
  | .error _ => ⟨[], [(unit, none)]⟩
  | .ok () =>
    let merged := mergeEntries rfc3339 readable unit records.entries disk
    ⟨[.other "lock review marks", .other "scan workspace state"] ++ merged.steps ++
      if merged.steps.any writes then stampMarks unit (stamp unit) else [], merged.unreadable⟩

def mergeUnits (stamp : ReviewUnit → String) :
    List (ReviewUnit × SortedMap String FileContent) → Disk → Merge
  | [], _ => ⟨[], []⟩
  | (unit, records) :: rest, disk =>
    let first := mergeUnit rfc3339 readable stamp disk unit records
    let more := mergeUnits stamp rest (disk.after first.steps)
    ⟨first.steps ++ more.steps, first.unreadable ++ more.unreadable⟩

/-- The record files one workspace kept for itself. -/
abbrev WorkspaceMarks := SortedMap ReviewUnit (SortedMap String FileContent)

def mergeMarks (stamp : ReviewUnit → String) (disk : Disk) (old : WorkspaceMarks) : Merge :=
  let merged := mergeUnits rfc3339 readable stamp old.entries disk
  { merged with steps := .other "scan workspace state" :: merged.steps }

end Merging

end ReviewStore

namespace FileStep

/-- The record file a step writes or removes. -/
def touches : FileStep → Option (ReviewUnit × String)
  | .put unit name _ => some (unit, name)
  | .remove unit name => some (unit, name)
  | _ => none

/-- What a step leaves in the record file it touches. -/
def leaves : FileStep → Option FileContent
  | .put _ _ content => some content
  | _ => none

end FileStep

namespace Disk

variable {disk : Disk} {unit : ReviewUnit} {name : String} {step : FileStep}

theorem directory_insert {other : ReviewUnit} {records : SortedMap String FileContent} :
    ({ disk with directories := disk.directories.insert other records } : Disk).directory unit =
      if other = unit then records else disk.directory unit := by
  simp only [directory, SortedMap.lookup_insert]
  split_ifs <;> rfl

theorem record_eq_none (missing : disk.directories.lookup unit = none) :
    disk.record unit name = none := by
  simp [record, directory, missing]

/-- A step leaves every record file it does not touch as it is. -/
theorem record_apply : (disk.apply step).record unit name =
    if step.touches = some (unit, name) then step.leaves else disk.record unit name := by
  cases step with
  | other _ => rfl
  | stamp _ _ => rfl
  | put other file content =>
    simp only [apply, record, directory_insert, FileStep.touches, FileStep.leaves,
      Option.some.injEq, Prod.mk.injEq]
    split_ifs with same both only
    · rw [SortedMap.lookup_insert, if_pos both.2]
    · rw [SortedMap.lookup_insert, if_neg fun equal => both ⟨same, equal⟩, same]
    · exact absurd only.1 same
    · rfl
  | remove other file =>
    simp only [FileStep.touches, FileStep.leaves, Option.some.injEq, Prod.mk.injEq]
    have modified : ((disk.apply (.remove other file)).directory unit) =
        if other = unit then (disk.directory unit).erase file else disk.directory unit := by
      simp only [apply, directory, SortedMap.lookup_modify]
      split_ifs with same
      · subst same
        cases disk.directories.lookup other <;> rfl
      · rfl
    rw [record, modified, record]
    split_ifs with same both only
    · rw [SortedMap.lookup_erase, if_pos both.2]
    · rw [SortedMap.lookup_erase, if_neg fun equal => both ⟨same, equal⟩]
    · exact absurd only.1 same
    · rfl
  | createDirectory other =>
    simp only [FileStep.touches, reduceCtorEq, if_false, apply]
    split_ifs with there
    · rfl
    · rw [record, directory_insert]
      split_ifs with same
      · subst same
        have missing : disk.directories.lookup other = none := by
          rwa [← SortedMap.lookup_isSome, Option.not_isSome_iff_eq_none] at there
        rw [record_eq_none missing]
        rfl
      · rfl
  | removeDirectory other =>
    simp only [FileStep.touches, reduceCtorEq, if_false, apply]
    split_ifs with emptied
    · simp only [record, directory, SortedMap.lookup_erase]
      split_ifs with same
      · subst same
        exact (SortedMap.isEmpty_iff.mp emptied name).symm
      · rfl
    · rfl

theorem stamp_apply : (disk.apply step).stamp unit =
    match step with
    | .stamp other value => if other = unit then some value else disk.stamp unit
    | _ => disk.stamp unit := by
  cases step with
  | stamp other value => exact SortedMap.lookup_insert
  | other _ => rfl
  | put _ _ _ => rfl
  | remove _ _ => rfl
  | createDirectory other =>
    simp only [apply]
    split_ifs <;> rfl
  | removeDirectory other =>
    simp only [apply]
    split_ifs <;> rfl

theorem after_append (steps more : List FileStep) :
    disk.after (steps ++ more) = (disk.after steps).after more := List.foldl_append ..

theorem after_cons (steps : List FileStep) :
    disk.after (step :: steps) = (disk.apply step).after steps := rfl

theorem record_after {steps : List FileStep}
    (untouched : ∀ step ∈ steps, step.touches ≠ some (unit, name)) :
    (disk.after steps).record unit name = disk.record unit name := by
  induction steps generalizing disk with
  | nil => rfl
  | cons step steps ih =>
    obtain ⟨first, untouched⟩ := List.forall_mem_cons.mp untouched
    rw [after_cons, ih untouched, record_apply, if_neg first]

theorem stamp_after {steps : List FileStep}
    (unstamped : ∀ value, FileStep.stamp unit value ∉ steps) :
    (disk.after steps).stamp unit = disk.stamp unit := by
  induction steps generalizing disk with
  | nil => rfl
  | cons step steps ih =>
    rw [after_cons, ih fun value mem => unstamped value (List.mem_cons_of_mem _ mem), stamp_apply]
    split
    · next other value =>
      rw [if_neg]
      rintro rfl
      exact unstamped value List.mem_cons_self
    · rfl

/-- The last stamp of a review stays. -/
theorem stamp_after_stamped {steps : List FileStep} {value : String}
    (stamped : FileStep.stamp unit value ∈ steps) :
    ∃ last, FileStep.stamp unit last ∈ steps ∧ (disk.after steps).stamp unit = some last := by
  induction steps generalizing disk value with
  | nil => cases stamped
  | cons step steps ih =>
    by_cases later : ∃ value, FileStep.stamp unit value ∈ steps
    · obtain ⟨value, mem⟩ := later
      obtain ⟨last, mem, same⟩ := ih mem
      exact ⟨last, List.mem_cons_of_mem _ mem, same⟩
    · rcases List.mem_cons.mp stamped with rfl | mem
      · refine ⟨value, List.mem_cons_self, ?_⟩
        rw [after_cons, stamp_after fun value mem => later ⟨value, mem⟩, stamp_apply]
        exact if_pos rfl
      · exact absurd ⟨value, mem⟩ later

end Disk

end ProgressiveReviewer.Marks
