import Mathlib.Logic.Relation
import ProgressiveReviewer.Parsers.GitDiff

/-! The records of changed files that Git and jj print (`review-repository/src/repository/git/records.rs`,
`jj/records.rs`). -/

namespace ProgressiveReviewer.Parsers

open Library Hunks Marks

inductive ChangeKind where
  | added
  | modified
  | deleted
  | renamed
  | typeChanged
  | conflict
  deriving DecidableEq, Repr

/-- One changed path, as a record gives it. -/
structure ChangedFile extends Marks.ChangedFile where
  change : ChangeKind
  displayPath : String
  deriving DecidableEq

namespace ChangedFile

/-- The text of a file's paths, when it has one. -/
def displayPaths : (oldPath newPath : Option RepoPath) →
    Option { _text : String // (newPath.or oldPath).isSome = true }
  | some old, some new =>
    some ⟨if old ≠ new then s!"{Marks.displayPath old} => {Marks.displayPath new}" else Marks.displayPath old, rfl⟩
  | some path, none => some ⟨Marks.displayPath path, rfl⟩
  | none, some path => some ⟨Marks.displayPath path, rfl⟩
  | none, none => none

theorem displayPaths_eq_none {oldPath newPath : Option RepoPath} :
    displayPaths oldPath newPath = none ↔ oldPath = none ∧ newPath = none := by
  cases oldPath <;> cases newPath <;> simp [displayPaths]

def entryTypeChanged (oldKind newKind : FileKind) : Bool :=
  oldKind ≠ .absent && newKind ≠ .absent && oldKind ≠ newKind

/-- Stable, by the bytes of the path. -/
def sortByReviewPath (files : List ChangedFile) : List ChangedFile :=
  files.mergeSort fun left right => decide (left.reviewPath ≤ right.reviewPath)

end ChangedFile

/-- All fields but the last, which is empty. -/
def closedFields (reason : Protocol) (fields : List Bytes) : Parsed (List Bytes) :=
  if fields.getLast? ≠ some [] then .error reason
  else do
    let stop ← Outcome.minus fields.length 1
    Outcome.slice fields 0 stop

/-! ## Git -/

def gitMode (value : Bytes) : Option FileKind :=
  if value = bytesOf "000000" then some .absent
  else if value = bytesOf "100644" ∨ value = bytesOf "100755" then some .file
  else if value = bytesOf "120000" then some .symlink
  else if value = bytesOf "160000" then some .gitlink
  else none

def gitFiles (detail : String) : Protocol := ⟨"read Git changed files", detail⟩

def fromGitMode (value : Bytes) : Parsed FileKind :=
  .okOr (gitFiles "Git returned an unknown file mode") (gitMode value)

structure GitChangeMetadata where
  oldKind : FileKind
  newKind : FileKind
  status : Bytes

namespace GitChangeMetadata

def parse (metadata : Bytes) : Parsed GitChangeMetadata :=
  let values := metadata.splitOn 32
  if values[5]?.isSome then .error (gitFiles "Git returned invalid raw diff metadata")
  else
    match values[0]?.bind (stripPrefix [58]), values[1]?, values[4]? with
    | some oldMode, some newMode, some status => do
      let oldKind ← fromGitMode oldMode
      let newKind ← fromGitMode newMode
      return ⟨oldKind, newKind, status⟩
    | _, _, _ => .error (gitFiles "Git returned incomplete raw diff metadata")

/-- A rename or a copy. -/
def hasSecondPath (status : Bytes) : Bool := status.head? = some 82 || status.head? = some 67

def secondPath (metadata : GitChangeMetadata) (fields : List Bytes) : Parsed (Option Bytes × List Bytes) :=
  if !hasSecondPath metadata.status then .ok (none, fields)
  else
    match fields with
    | path :: fields => .ok (some path, fields)
    | [] => .error (gitFiles "Git returned a rename without its new path")

def change (metadata : GitChangeMetadata) : Parsed ChangeKind :=
  if metadata.status.head? = some 85 then .ok .conflict
  else if ChangedFile.entryTypeChanged metadata.oldKind metadata.newKind then .ok .typeChanged
  else
    match metadata.status.head? with
    | some 65 | some 67 => .ok .added
    | some 77 => .ok .modified
    | some 68 => .ok .deleted
    | some 82 => .ok .renamed
    | some 84 => .ok .typeChanged
    | _ => .error (gitFiles "Git returned an unknown file status")

end GitChangeMetadata

def gitFile (metadata : GitChangeMetadata) (firstPath : Bytes) (secondPath : Option Bytes) :
    Parsed ChangedFile := do
  let oldPath := if metadata.oldKind ≠ .absent then some firstPath else none
  let newPath := if metadata.newKind ≠ .absent then some (secondPath.getD firstPath) else none
  -- Git raw changes always have a path.
  let ⟨displayPath, named⟩ ← Outcome.expect (ChangedFile.displayPaths oldPath newPath)
  let change ← metadata.change
  return { oldPath, newPath, oldKind := metadata.oldKind, newKind := metadata.newKind,
           statistics := .zero, named, change, displayPath }

/-- A record, and the fields after it. -/
def parseGitRecord (metadata : Bytes) (fields : List Bytes) : Parsed (ChangedFile × List Bytes) := do
  let metadata ← GitChangeMetadata.parse metadata
  match fields with
  | [] => .error (gitFiles "Git returned a changed file without a path")
  | firstPath :: fields =>
    let (secondPath, fields) ← metadata.secondPath fields
    let file ← gitFile metadata firstPath secondPath
    return (file, fields)

/-- What a record's first field says. -/
def HasMetadata (line : Bytes) (metadata : GitChangeMetadata) : Prop :=
  ∃ oldMode newMode oldObject newObject,
    line.splitOn 32 = [58 :: oldMode, newMode, oldObject, newObject, metadata.status] ∧
      gitMode oldMode = some metadata.oldKind ∧ gitMode newMode = some metadata.newKind

/-- A complete record at the head of the fields, and the fields after it. -/
def IsRecord (fields : List Bytes) (metadata : GitChangeMetadata) (rest : List Bytes) : Prop :=
  ∃ line paths, fields = line :: (paths ++ rest) ∧ HasMetadata line metadata ∧
    paths.length = if GitChangeMetadata.hasSecondPath metadata.status then 2 else 1

namespace GitChangeMetadata

/-- Neither side of the change is there. -/
def Pathless (metadata : GitChangeMetadata) : Prop := metadata.oldKind = .absent ∧ metadata.newKind = .absent

def HasStatus (metadata : GitChangeMetadata) : Prop :=
  metadata.status.head? = some 85 ∨ ChangedFile.entryTypeChanged metadata.oldKind metadata.newKind = true ∨
    ∃ letter ∈ ([65, 67, 77, 68, 82, 84] : Bytes), metadata.status.head? = some letter

theorem parse_of_metadata {line : Bytes} {metadata : GitChangeMetadata} (has : HasMetadata line metadata) :
    parse line = .ok metadata := by
  obtain ⟨oldMode, newMode, oldObject, newObject, split, old, new⟩ := has
  have stripped : stripPrefix [58] (58 :: oldMode) = some oldMode := stripPrefix_eq_some.mpr rfl
  unfold parse fromGitMode
  simp only [split, List.getElem?_cons_zero, List.getElem?_cons_succ, List.getElem?_nil, Option.isSome_none,
    Bool.false_eq_true, if_false, Option.bind_some, stripped, old, new]
  rfl

theorem parse_cases (line : Bytes) :
    (∃ metadata, HasMetadata line metadata) ∨ ∃ reason, parse line = .error reason := by
  unfold parse fromGitMode HasMetadata
  generalize line.splitOn 32 = values
  dsimp only
  split
  · exact .inr ⟨_, rfl⟩
  · next few =>
    split
    · next oldMode newMode status old new has =>
      cases oldKind : gitMode oldMode with
      | none => exact .inr ⟨_, rfl⟩
      | some oldKind' =>
        cases newKind : gitMode newMode with
        | none => exact .inr ⟨_, rfl⟩
        | some newKind' =>
          match values with
          | [] | [_] | [_, _] | [_, _, _] | [_, _, _, _] => cases has
          | [first, second, oldObject, newObject, last] =>
            obtain rfl := stripPrefix_eq_some.mp old
            cases new
            cases has
            exact .inl ⟨⟨oldKind', newKind', _⟩, _, _, _, _, rfl, oldKind, newKind⟩
          | _ :: _ :: _ :: _ :: _ :: _ :: _ => exact absurd rfl few
    · exact .inr ⟨_, rfl⟩

theorem change_cases (metadata : GitChangeMetadata) :
    metadata.HasStatus ∧ (∃ kind, metadata.change = .ok kind) ∨
      ¬ metadata.HasStatus ∧ ∃ reason, metadata.change = .error reason := by
  unfold change HasStatus
  split
  · next conflict => exact .inl ⟨.inl conflict, _, rfl⟩
  · next merged =>
    split
    · next differs => exact .inl ⟨.inr (.inl differs), _, rfl⟩
    · next same =>
      split
      · next letter => exact .inl ⟨.inr (.inr ⟨65, by decide, letter⟩), _, rfl⟩
      · next letter => exact .inl ⟨.inr (.inr ⟨67, by decide, letter⟩), _, rfl⟩
      · next letter => exact .inl ⟨.inr (.inr ⟨77, by decide, letter⟩), _, rfl⟩
      · next letter => exact .inl ⟨.inr (.inr ⟨68, by decide, letter⟩), _, rfl⟩
      · next letter => exact .inl ⟨.inr (.inr ⟨82, by decide, letter⟩), _, rfl⟩
      · next letter => exact .inl ⟨.inr (.inr ⟨84, by decide, letter⟩), _, rfl⟩
      · next a c m d r t =>
        refine .inr ⟨?_, _, rfl⟩
        rintro (conflict | differs | ⟨letter, mem, held⟩)
        · exact merged conflict
        · exact same differs
        · simp only [List.mem_cons, List.not_mem_nil, or_false] at mem
          rcases mem with rfl | rfl | rfl | rfl | rfl | rfl
          · exact a held
          · exact c held
          · exact m held
          · exact d held
          · exact r held
          · exact t held

end GitChangeMetadata

variable {metadata : GitChangeMetadata}

theorem gitFile_pathless {firstPath : Bytes} {secondPath : Option Bytes} (pathless : metadata.Pathless) :
    gitFile metadata firstPath secondPath = .panicked := by
  unfold gitFile
  rw [if_neg (not_not.mpr pathless.1), if_neg (not_not.mpr pathless.2)]
  rfl

theorem gitFile_cases (firstPath : Bytes) (secondPath : Option Bytes) (named : ¬ metadata.Pathless) :
    metadata.HasStatus ∧ (∃ file, gitFile metadata firstPath secondPath = .ok file) ∨
      ¬ metadata.HasStatus ∧ ∃ reason, gitFile metadata firstPath secondPath = .error reason := by
  have shown : ChangedFile.displayPaths (if metadata.oldKind ≠ .absent then some firstPath else none)
      (if metadata.newKind ≠ .absent then some (secondPath.getD firstPath) else none) ≠ none := by
    rw [ne_eq, ChangedFile.displayPaths_eq_none]
    intro ⟨old, new⟩
    exact named ⟨by simpa using old, by simpa using new⟩
  obtain ⟨⟨text, held⟩, shown⟩ := Option.ne_none_iff_exists'.mp shown
  unfold gitFile
  dsimp only
  rw [shown, Outcome.expect_some, Outcome.ok_bind]
  rcases metadata.change_cases with ⟨known, kind, change⟩ | ⟨unknown, reason, change⟩
  · refine .inl ⟨known, ?_⟩
    rw [change]
    exact ⟨_, rfl⟩
  · refine .inr ⟨unknown, reason, ?_⟩
    rw [change]
    rfl

theorem IsRecord.read {line : Bytes} {fields rest : List Bytes} (record : IsRecord (line :: fields) metadata rest) :
    ∃ firstPath secondPath, parseGitRecord line fields =
      (do return (← gitFile metadata firstPath secondPath, rest)) := by
  obtain ⟨line', paths, same, has, count⟩ := record
  obtain ⟨rfl, rfl⟩ := List.cons.inj same
  unfold parseGitRecord
  rw [GitChangeMetadata.parse_of_metadata has, Outcome.ok_bind]
  split at count
  · next second =>
    match paths with
    | [firstPath, secondPath] =>
      refine ⟨firstPath, some secondPath, ?_⟩
      simp only [List.cons_append, List.nil_append, GitChangeMetadata.secondPath, second]
      rfl
  · next single =>
    match paths with
    | [firstPath] =>
      refine ⟨firstPath, none, ?_⟩
      simp only [List.cons_append, List.nil_append, GitChangeMetadata.secondPath, single]
      rfl

theorem parseGitRecord_cases (line : Bytes) (fields : List Bytes) :
    (∃ metadata rest, IsRecord (line :: fields) metadata rest) ∨
      ∃ reason, parseGitRecord line fields = .error reason := by
  rcases GitChangeMetadata.parse_cases line with ⟨metadata, has⟩ | ⟨reason, refused⟩
  · unfold parseGitRecord
    rw [GitChangeMetadata.parse_of_metadata has, Outcome.ok_bind]
    cases second : GitChangeMetadata.hasSecondPath metadata.status with
    | false =>
      match fields with
      | [] => exact .inr ⟨_, rfl⟩
      | firstPath :: rest => exact .inl ⟨metadata, rest, line, [firstPath], rfl, has, by simp [second]⟩
    | true =>
      match fields with
      | [] => exact .inr ⟨_, rfl⟩
      | [firstPath] => exact .inr ⟨_, by simp only [GitChangeMetadata.secondPath, second]; rfl⟩
      | firstPath :: secondPath :: rest =>
        exact .inl ⟨metadata, rest, line, [firstPath, secondPath], rfl, has, by simp [second]⟩
  · refine .inr ⟨reason, ?_⟩
    unfold parseGitRecord
    rw [refused]
    rfl

theorem IsRecord.shorter {fields rest : List Bytes} (record : IsRecord fields metadata rest) :
    rest.length < fields.length := by
  obtain ⟨line, paths, rfl, -, -⟩ := record
  simp only [List.length_cons, List.length_append]
  omega

theorem parseGitRecord_shorter {line : Bytes} {fields rest : List Bytes} {file : ChangedFile}
    (read : parseGitRecord line fields = .ok (file, rest)) : rest.length < fields.length + 1 := by
  rcases parseGitRecord_cases line fields with ⟨metadata, rest', record⟩ | ⟨reason, refused⟩
  · obtain ⟨_, _, run⟩ := record.read
    obtain ⟨file', -, same⟩ := Outcome.bind_eq_ok.mp (run.symm.trans read)
    cases same
    exact record.shorter
  · cases refused.symm.trans read

def readGitRecords : List Bytes → Parsed (List ChangedFile)
  | [] => .ok []
  | metadata :: fields =>
    match read : parseGitRecord metadata fields with
    | .ok (file, rest) => do
      have := parseGitRecord_shorter read
      return file :: (← readGitRecords rest)
    | .error reason => .error reason
    | .panicked => .panicked
  termination_by fields => fields.length

/-- Parse the records that `git diff --raw -z` prints. -/
def parseGit (output : Bytes) : Parsed (List ChangedFile) :=
  if output = [] then .ok []
  else do
    let fields ← closedFields (gitFiles "Git returned an invalid raw diff") (output.splitOn 0)
    let files ← readGitRecords fields
    return ChangedFile.sortByReviewPath files

/-- A record that the parser reads. -/
def Reads (fields rest : List Bytes) : Prop :=
  ∃ metadata, IsRecord fields metadata rest ∧ ¬ metadata.Pathless ∧ metadata.HasStatus

/-- A record without either side. -/
def PathlessRecord (fields : List Bytes) : Prop :=
  ∃ metadata rest, IsRecord fields metadata rest ∧ metadata.Pathless

theorem Reads.read {line : Bytes} {fields rest : List Bytes} (reads : Reads (line :: fields) rest) :
    ∃ file, parseGitRecord line fields = .ok (file, rest) := by
  obtain ⟨metadata, record, named, known⟩ := reads
  obtain ⟨firstPath, secondPath, run⟩ := record.read
  obtain ⟨-, file, got⟩ | ⟨unknown, -⟩ := gitFile_cases firstPath secondPath named
  · exact ⟨file, by rw [run, got]; rfl⟩
  · exact absurd known unknown

theorem PathlessRecord.read {line : Bytes} {fields : List Bytes} (record : PathlessRecord (line :: fields)) :
    parseGitRecord line fields = .panicked := by
  obtain ⟨metadata, rest, record, pathless⟩ := record
  obtain ⟨firstPath, secondPath, run⟩ := record.read
  rw [run, gitFile_pathless pathless]
  rfl

theorem record_cases (line : Bytes) (fields : List Bytes) : (∃ rest, Reads (line :: fields) rest) ∨
    PathlessRecord (line :: fields) ∨ ∃ reason, parseGitRecord line fields = .error reason := by
  rcases parseGitRecord_cases line fields with ⟨metadata, rest, record⟩ | refused
  · by_cases pathless : metadata.Pathless
    · exact .inr (.inl ⟨metadata, rest, record, pathless⟩)
    · obtain ⟨firstPath, secondPath, run⟩ := record.read
      obtain ⟨known, -⟩ | ⟨-, reason, refused⟩ :=
        gitFile_cases firstPath secondPath pathless
      · exact .inl ⟨rest, metadata, record, pathless, known⟩
      · exact .inr (.inr ⟨reason, by rw [run, refused]; rfl⟩)
  · exact .inr (.inr refused)

/-- The fields after some records that the parser reads are a record without either side. -/
def ReachesPathless (fields : List Bytes) : Prop :=
  ∃ rest, Relation.ReflTransGen Reads fields rest ∧ PathlessRecord rest

theorem readGitRecords_ok {line : Bytes} {fields rest : List Bytes} {file : ChangedFile}
    (read : parseGitRecord line fields = .ok (file, rest)) :
    readGitRecords (line :: fields) = (do return file :: (← readGitRecords rest)) := by
  rw [readGitRecords]
  split
  · next got =>
    cases got.symm.trans read
    rfl
  · next got => cases got.symm.trans read
  · next got => cases got.symm.trans read

theorem readGitRecords_panicked {line : Bytes} {fields : List Bytes}
    (read : parseGitRecord line fields = .panicked) : readGitRecords (line :: fields) = .panicked := by
  rw [readGitRecords]
  split
  · next got => cases got.symm.trans read
  · next got => cases got.symm.trans read
  · rfl

theorem readGitRecords_error {line : Bytes} {fields : List Bytes} {reason : Protocol}
    (read : parseGitRecord line fields = .error reason) : readGitRecords (line :: fields) = .error reason := by
  rw [readGitRecords]
  split
  · next got => cases got.symm.trans read
  · next got =>
    cases got.symm.trans read
    rfl
  · next got => cases got.symm.trans read

/-- The loop panics where, after records that it reads, one without either side comes. -/
theorem returns_readGitRecords (fields : List Bytes) :
    (readGitRecords fields).Returns ↔ ¬ ReachesPathless fields := by
  match fields with
  | [] =>
    rw [readGitRecords]
    refine ⟨fun _ => ?_, fun _ => nofun⟩
    rintro ⟨rest, path, metadata, after, ⟨line, paths, same, -⟩, -⟩
    rcases path.cases_head with rfl | ⟨_, ⟨_, ⟨_, _, none, -⟩, -⟩, -⟩
    · cases same
    · cases none
  | line :: fields =>
    rcases record_cases line fields with ⟨rest, reads⟩ | pathless | ⟨reason, refused⟩
    · obtain ⟨file, read⟩ := reads.read
      have shorter := parseGitRecord_shorter read
      have later := returns_readGitRecords rest
      have same : ReachesPathless (line :: fields) ↔ ReachesPathless rest := by
        constructor
        · rintro ⟨last, path, record⟩
          rcases path.cases_head with rfl | ⟨next, first, path⟩
          · cases record.read.symm.trans read
          · obtain ⟨_, read'⟩ := first.read
            cases read'.symm.trans read
            exact ⟨last, path, record⟩
        · exact fun ⟨last, path, record⟩ => ⟨last, .head reads path, record⟩
      rw [readGitRecords_ok read, same, ← later, Outcome.returns_bind]
      exact and_iff_left fun _ _ => nofun
    · rw [readGitRecords_panicked pathless.read]
      exact ⟨fun returns => absurd rfl returns, fun free => absurd ⟨_, .refl, pathless⟩ free⟩
    · rw [readGitRecords_error refused]
      refine ⟨fun _ => ?_, fun _ => nofun⟩
      rintro ⟨last, path, record⟩
      rcases path.cases_head with rfl | ⟨next, first, path⟩
      · cases record.read.symm.trans refused
      · obtain ⟨_, read⟩ := first.read
        cases read.symm.trans refused
  termination_by fields.length

theorem closedFields_cases (reason : Protocol) {fields : List Bytes} (some : fields ≠ []) :
    closedFields reason fields = .error reason ∧ fields.getLast? ≠ .some [] ∨
      closedFields reason fields = .ok fields.dropLast ∧ fields.getLast? = .some [] := by
  have long : 1 ≤ fields.length := List.length_pos_iff.mpr some
  unfold closedFields
  split
  · next «open» => exact .inl ⟨rfl, «open»⟩
  · next closed =>
    refine .inr ⟨?_, not_not.mp closed⟩
    rw [Outcome.minus_of_le long, Outcome.ok_bind, Outcome.slice_of_le (Nat.zero_le _) (Nat.sub_le _ _),
      List.drop_zero, List.dropLast_eq_take]

/-- The raw diff ends in an empty field, and after records that the parser reads one without
either side comes. -/
def PathlessDiff (output : Bytes) : Prop :=
  (output.splitOn 0).getLast? = some [] ∧ ReachesPathless (output.splitOn 0).dropLast

theorem returns_parseGit (output : Bytes) : (parseGit output).Returns ↔ ¬ PathlessDiff output := by
  unfold parseGit PathlessDiff
  split
  · next none =>
    subst none
    have first := (returns_readGitRecords []).mp (by rw [readGitRecords]; exact nofun)
    exact ⟨fun _ reaches => first reaches.2, fun _ => nofun⟩
  · obtain ⟨run, «open»⟩ | ⟨run, closed⟩ := closedFields_cases
      (gitFiles "Git returned an invalid raw diff") (List.splitOn_ne_nil 0 output)
    · rw [run]
      exact ⟨fun _ reaches => «open» reaches.1, fun _ => nofun⟩
    · rw [run, Outcome.ok_bind, Outcome.returns_bind, returns_readGitRecords, not_and]
      exact ⟨fun returns _ => returns.1, fun free => ⟨free closed, fun _ _ => nofun⟩⟩

/-- Parse the per-path line counts that `git diff --numstat -z` prints. -/
def parseGitStats (output : Bytes) : Outcome Error PathStatistics :=
  let fields := output.splitOn 0
  if fields.getLast? ≠ some [] then .error (.repository "Git returned invalid diff statistics")
  else do
    let stop ← Outcome.minus fields.length 1
    let fields ← Outcome.slice fields 0 stop
    .ofExcept (readGitStats (fun _ => none) fields)

theorem parseGitStats_eq (output : Bytes) : parseGitStats output = .ofExcept (Marks.parseGitStats output) := by
  have long : 1 ≤ (output.splitOn 0).length := List.length_pos_iff.mpr (List.splitOn_ne_nil 0 output)
  unfold parseGitStats Marks.parseGitStats
  dsimp only
  split
  · rfl
  · rw [Outcome.minus_of_le long, Outcome.ok_bind, Outcome.slice_of_le (Nat.zero_le _) (Nat.sub_le _ _),
      Outcome.ok_bind, List.drop_zero, List.dropLast_eq_take]

/-! ## jj -/

def jjFiles (detail : String) : Protocol := ⟨"read jj changed files", detail⟩

def utf8 (bytes : Bytes) : Option String := String.fromUTF8? ⟨bytes.toArray⟩

def fromJj (value : Bytes) : Parsed FileKind :=
  if value = [] then .ok .absent
  else if value = bytesOf "file" then .ok .file
  else if value = bytesOf "symlink" then .ok .symlink
  else if value = bytesOf "conflict" then .ok .conflict
  else .error (jjFiles "jj returned an unknown file type")

def jjChange (oldKind newKind : FileKind) (status : String) : Parsed ChangeKind :=
  if newKind = .conflict then .ok .conflict
  else if oldKind ≠ .conflict ∧ ChangedFile.entryTypeChanged oldKind newKind = true then .ok .typeChanged
  else
    match status with
    | "added" | "copied" => .ok .added
    | "modified" => .ok .modified
    | "removed" => .ok .deleted
    | "renamed" => .ok .renamed
    | _ => .error (jjFiles "jj returned an unknown file status")

def parseJjRecord (fields : List Bytes) : Parsed ChangedFile := do
  let oldKind ← fromJj (← Outcome.entry fields 2)
  let newKind ← fromJj (← Outcome.entry fields 3)
  let oldField ← Outcome.entry fields 0
  let oldPath := if oldKind ≠ .absent then some oldField else none
  let newField ← Outcome.entry fields 1
  let newPath := if newKind ≠ .absent then some newField else none
  let status ← Outcome.okOr (jjFiles "jj returned a non-UTF-8 file status") (utf8 (← Outcome.entry fields 4))
  let change ← jjChange oldKind newKind status
  let ⟨displayPath, named⟩ ← Outcome.okOr (jjFiles "jj returned a changed file without a path")
    (ChangedFile.displayPaths oldPath newPath)
  return { oldPath, newPath, oldKind, newKind, statistics := .zero, named, change, displayPath }

/-- The fields of records of this many, all closed. -/
def closedRecords (reason : Protocol) (size : Nat) (fields : List Bytes) : Parsed (List (List Bytes)) :=
  if fields.getLast? ≠ some [] then .error reason
  else do
    let count ← Outcome.minus fields.length 1
    if count % size ≠ 0 then .error reason
    else
      let fields ← Outcome.slice fields 0 count
      return chunksExact size fields

/-- Parse the changed-file records that `jj diff` prints with the file template. -/
def parseJj (output : Bytes) : Parsed (List ChangedFile) :=
  if output = [] then .ok []
  else do
    let records ← closedRecords (jjFiles "jj returned an invalid file record") 5 (output.splitOn 0)
    let files ← Outcome.collect parseJjRecord records
    return ChangedFile.sortByReviewPath files

def jjStatistics (detail : String) : Protocol := ⟨"read jj diff statistics", detail⟩

def jjLineCount (value : Bytes) : Parsed Nat :=
  .okOr (jjStatistics "jj returned an invalid line count") (parseU64 value)

def addJjRecord (statistics : PathStatistics) (fields : List Bytes) : Parsed PathStatistics := do
  let path ← Outcome.entry fields 0
  let added ← jjLineCount (← Outcome.entry fields 1)
  let removed ← jjLineCount (← Outcome.entry fields 2)
  return Function.update statistics path (some ⟨added, removed⟩)

/-- Apply the per-path line counts that the jj statistics template prints. -/
def addJjStats (files : List ChangedFile) (output : Bytes) : Parsed (List ChangedFile) :=
  if output = [] then .ok files
  else do
    let records ← closedRecords (jjStatistics "jj returned an invalid diff-stat record") 3 (output.splitOn 0)
    let statistics ← Outcome.fold addJjRecord records fun _ => none
    return files.map fun file => { file with statistics := (statistics file.reviewPath).getD file.statistics }

theorem closedRecords_spec (reason : Protocol) (size : Nat) {fields : List Bytes} (some : fields ≠ []) :
    closedRecords reason size fields = .error reason ∨
      ∃ records, closedRecords reason size fields = .ok records ∧ ∀ record ∈ records, record.length = size := by
  have long : 1 ≤ fields.length := List.length_pos_iff.mpr some
  unfold closedRecords
  split
  · exact .inl rfl
  · rw [Outcome.minus_of_le long, Outcome.ok_bind]
    split
    · exact .inl rfl
    · rw [Outcome.slice_of_le (Nat.zero_le _) (Nat.sub_le _ _), Outcome.ok_bind]
      exact .inr ⟨_, rfl, fun record mem => length_chunk mem⟩

theorem returns_fromJj (value : Bytes) : (fromJj value).Returns := by
  unfold fromJj
  split_ifs <;> exact nofun

theorem returns_jjChange (oldKind newKind : FileKind) (status : String) :
    (jjChange oldKind newKind status).Returns := by
  unfold jjChange
  split_ifs
  · exact nofun
  · exact nofun
  · split <;> exact nofun

theorem returns_parseJjRecord {fields : List Bytes} (five : fields.length = 5) :
    (parseJjRecord fields).Returns := by
  unfold parseJjRecord
  simp only [Outcome.entry_of_lt (show 2 < fields.length by omega), Outcome.ok_bind,
    Outcome.entry_of_lt (show 3 < fields.length by omega),
    Outcome.entry_of_lt (show 0 < fields.length by omega),
    Outcome.entry_of_lt (show 1 < fields.length by omega),
    Outcome.entry_of_lt (show 4 < fields.length by omega)]
  refine Outcome.returns_bind.mpr ⟨returns_fromJj _, fun oldKind _ => ?_⟩
  refine Outcome.returns_bind.mpr ⟨returns_fromJj _, fun newKind _ => ?_⟩
  refine Outcome.returns_bind.mpr ⟨Outcome.returns_okOr, fun status _ => ?_⟩
  refine Outcome.returns_bind.mpr ⟨returns_jjChange _ _ _, fun change _ => ?_⟩
  exact Outcome.returns_bind.mpr ⟨Outcome.returns_okOr, fun _ _ => nofun⟩

theorem returns_parseJj (output : Bytes) : (parseJj output).Returns := by
  unfold parseJj
  split
  · exact nofun
  · obtain refused | ⟨records, run, five⟩ := closedRecords_spec (jjFiles "jj returned an invalid file record") 5
      (List.splitOn_ne_nil 0 output)
    · rw [refused]
      exact nofun
    · rw [run, Outcome.ok_bind]
      refine Outcome.returns_bind.mpr ⟨Outcome.returns_collect fun record mem => ?_, fun _ _ => nofun⟩
      exact returns_parseJjRecord (five record mem)

theorem returns_addJjRecord {fields : List Bytes} (three : fields.length = 3) (statistics : PathStatistics) :
    (addJjRecord statistics fields).Returns := by
  unfold addJjRecord
  simp only [Outcome.entry_of_lt (show 0 < fields.length by omega), Outcome.ok_bind,
    Outcome.entry_of_lt (show 1 < fields.length by omega),
    Outcome.entry_of_lt (show 2 < fields.length by omega)]
  refine Outcome.returns_bind.mpr ⟨Outcome.returns_okOr, fun added _ => ?_⟩
  exact Outcome.returns_bind.mpr ⟨Outcome.returns_okOr, fun removed _ => nofun⟩

theorem returns_addJjStats (files : List ChangedFile) (output : Bytes) : (addJjStats files output).Returns := by
  unfold addJjStats
  split
  · exact nofun
  · obtain refused | ⟨records, run, three⟩ := closedRecords_spec
      (jjStatistics "jj returned an invalid diff-stat record") 3 (List.splitOn_ne_nil 0 output)
    · rw [refused]
      exact nofun
    · rw [run, Outcome.ok_bind]
      refine Outcome.returns_bind.mpr ⟨Outcome.returns_fold_of fun record mem statistics => ?_, fun _ _ => nofun⟩
      exact returns_addJjRecord (three record mem) statistics

end ProgressiveReviewer.Parsers
