import ProgressiveReviewer.Library.SortedMap
import ProgressiveReviewer.Marks.Snapshot

/-! The code a round explores and the places in it that texts cite
(`review-explore/src/source.rs`, `capture.rs`, `not_relevant.rs`). Patches and the
frozen text of the files are left out: they only serve the viewers. -/

namespace ProgressiveReviewer.Explore

open Library Hunks Marks

/-! Texts, as the checks of the round read them. -/

/-- The Unicode white space characters. -/
def isWhitespace (char : Char) : Bool :=
  let code := char.toNat
  (9 ≤ code && code ≤ 13) || code == 32 || code == 0x85 || code == 0xA0 || code == 0x1680 ||
    (0x2000 ≤ code && code ≤ 0x200A) || code == 0x2028 || code == 0x2029 || code == 0x202F ||
    code == 0x205F || code == 0x3000

def isControl (char : Char) : Bool :=
  let code := char.toNat
  code < 32 || (127 ≤ code && code < 160)

/-- Whether nothing is left of a text once it is trimmed. -/
def isBlank (text : String) : Bool := text.toList.all isWhitespace

def trimEnd (chars : List Char) : List Char := (chars.reverse.dropWhile isWhitespace).reverse

def trimChars (chars : List Char) : List Char := trimEnd (chars.dropWhile isWhitespace)

def trim (text : String) : String := String.ofList (trimChars text.toList)

def splitWhitespace (text : String) : List String :=
  ((text.toList.splitOnP isWhitespace).filter (· ≠ [])).map String.ofList

/-- What the checks ask of the system: tables of Unicode, the working copy and the
base of the review on disk. -/
structure World where
  lowercase : String → String
  alphanumeric : Char → Bool
  /-- A text between quotes, as an error shows it. -/
  quoted : String → String
  /-- The canonical path of a regular file inside the working copy. -/
  diskPath : RepoPath → Except Marks.Error RepoPath
  readFile : RepoPath → Except Marks.Error Bytes
  /-- A file at the base of a change, read from the repository again. -/
  baseFile : SnapshotIdentity → RepoPath → Except Marks.Error Bytes

inductive SourceSide where
  | old
  | new
  deriving DecidableEq, Repr

/-- The path of a file on one side, when the file exists there. -/
def SourceSide.pathIn (file : ChangedFile) : SourceSide → Option RepoPath
  | .old => file.oldPath
  | .new => file.newPath

/-- One-based lines, both ends included. -/
structure SourceLineRange where
  firstLine : Nat
  lastLine : Nat
  deriving DecidableEq, Repr

def SourceLineRange.display (range : SourceLineRange) : String :=
  if range.firstLine = range.lastLine then toString range.firstLine
  else toString range.firstLine ++ "-" ++ toString range.lastLine

/-- A citation supplied by the agent. Without lines it names the whole file. -/
structure CodeLocation where
  path : RepoPath
  side : SourceSide
  lines : Option SourceLineRange
  deriving DecidableEq, Repr

namespace CodeLocation

def display (location : CodeLocation) : String :=
  match location.lines, location.side with
  | some lines, .old => displayPath location.path ++ " old " ++ lines.display
  | some lines, .new => displayPath location.path ++ " new " ++ lines.display
  | none, _ => displayPath location.path ++ " (whole file)"

/-- Whether the location is in `file`: its path on the location's side, or either of
its paths for the whole file. -/
def names (location : CodeLocation) (file : ChangedFile) : Bool :=
  match location.lines with
  | none => file.oldPath = some location.path || file.newPath = some location.path
  | some _ => location.side.pathIn file = some location.path

/-- Whether the path has components, all of them names. A single dot counts only in
front. -/
def relativePath (location : CodeLocation) : Bool :=
  let parts := location.path.splitOn 47
  location.path ≠ [] && location.path.head? ≠ some 47 && parts.head? ≠ some [46] &&
    parts.all (· ≠ [46, 46])

end CodeLocation

structure EvidenceRef where
  location : CodeLocation
  notes : String
  deriving DecidableEq, Repr

/-- Source content for native evidence viewers. Working-copy text is read on demand. -/
structure Source where
  path : RepoPath
  side : SourceSide
  content : Option Bytes
  /-- Why the content could not be read. -/
  limitation : Option Marks.Error
  base : Option SnapshotIdentity
  deriving DecidableEq, Repr

namespace Source

def read (world : World) (source : Source) : Except Marks.Error Bytes :=
  match source.side with
  | .new => world.diskPath source.path >>= world.readFile
  | .old =>
    match source.content, source.limitation, source.base with
    | some content, _, _ => .ok content
    | none, some limitation, _ => .error limitation
    | none, none, none => .error (.report "Base source unavailable")
    | none, none, some identity => world.baseFile identity source.path

/-- The lines of the content, when it is text. -/
def lineCount (world : World) (source : Source) : Option Nat :=
  match source.read world with
  | .ok bytes =>
    if !bytes.contains 0 && (String.fromUTF8? ⟨bytes.toArray⟩).isSome
    then some (Lines.new bytes).length else none
  | .error _ => none

end Source

structure ManifestEntry where
  file : Nat
  /-- None identifies file metadata; text hunks have one-based ids. -/
  hunk : Option Nat
  deriving DecidableEq, Repr

structure ReviewCheckpoint where
  reviewUnit : ReviewUnit
  checkpoint : String
  deriving DecidableEq, Repr

/-- The comparison a round explores. -/
structure Comparison where
  checkpoint : ReviewCheckpoint
  files : List ChangedFile
  manifest : List ManifestEntry
  sources : List Source
  base : Option SnapshotIdentity
  deriving DecidableEq

namespace Comparison

def workingSource (path : RepoPath) : Source := ⟨path, .new, none, none, none⟩

section Prepare

variable (repository : Repository) (world : World) (snapshot : Snapshot)

/-- The source of a file at the base. -/
def baseSource (path : RepoPath) : Source :=
  match repository.baseFileAt snapshot path with
  | .ok content => ⟨path, .old, some content, none, none⟩
  | .error error => ⟨path, .old, none, some error, none⟩

/-- The source of a file of the working copy. -/
def currentSource (path : RepoPath) : Source :=
  match (workingSource path).read world with
  | .ok _ => workingSource path
  | .error error => { workingSource path with limitation := some error }

def isHunk : DiffRow → Bool
  | .hunk .. => true
  | _ => false

def prepareFile (index : Nat) (file : ChangedFile) (result : Comparison) :
    Except Marks.Error Comparison := do
  let diff ← repository.diff snapshot file
  let hunks := (repository.parseFileDiff diff file).countP isHunk
  return { result with
    manifest := result.manifest ++ ⟨index, none⟩ ::
      (List.range hunks).map fun hunk => ⟨index, some (hunk + 1)⟩
    sources := result.sources ++ file.oldPath.toList.map (baseSource repository snapshot) ++
      file.newPath.toList.map (currentSource world) }

def prepareFiles : List (ChangedFile × Nat) → Comparison → Except Marks.Error Comparison
  | [], result => .ok result
  | (file, index) :: files, result => do
    prepareFiles files (← prepareFile repository world snapshot index file result)

def prepare : Except Marks.Error Comparison :=
  prepareFiles repository world snapshot snapshot.files.zipIdx
    { checkpoint := ⟨snapshot.identity.reviewUnit, snapshot.identity.snapshotId⟩
      files := snapshot.files
      manifest := []
      sources := []
      base := some snapshot.identity }

end Prepare

variable (world : World) (comparison : Comparison)

def source (location : CodeLocation) : Option Source :=
  if location.relativePath then
    match comparison.sources.find? fun source =>
        source.side = location.side && source.path = location.path with
    | some source => some source
    | none => some { workingSource location.path with
        side := location.side
        base := comparison.base }
  else none

def validateLocation (location : CodeLocation) : Bool :=
  match comparison.source location with
  | none => false
  | some source =>
    let changedSide := comparison.files.any fun file =>
      location.side.pathIn file = some location.path
    match source.side, world.diskPath source.path with
    | .new, .error _ => location.lines.isNone && changedSide
    | _, _ =>
      match source.read world, location.lines with
      -- Source buffers and their limitations are not saved with a round.
      | .error _, lines => lines.isNone && (source.limitation.isSome || changedSide)
      | .ok _, none => true
      | .ok _, some range =>
        match source.lineCount world with
        | some count =>
          0 < range.firstLine && range.firstLine ≤ range.lastLine && range.lastLine ≤ count
        | none => false

/-- Whether a mark names a changed file, on a side the change has, with valid lines. -/
def validateMark (location : CodeLocation) : Bool :=
  comparison.files.any location.names && comparison.validateLocation world location

def validateEvidence (evidence : EvidenceRef) : Bool :=
  !isBlank evidence.notes && comparison.validateLocation world evidence.location

/-- Every entry names a file of the comparison, and its hunk counts from one. -/
def Mapped : Prop :=
  ∀ entry ∈ comparison.manifest, entry.file < comparison.files.length ∧ entry.hunk ≠ some 0

instance : Decidable comparison.Mapped := inferInstanceAs (Decidable (∀ _ ∈ _, _))

end Comparison

end ProgressiveReviewer.Explore
