import ProgressiveReviewer.Hunks.Patch
import ProgressiveReviewer.Hunks.Rows
import ProgressiveReviewer.Marks.Store
import Mathlib.Data.Finset.Basic

/-! Snapshots of a repository and what the review state asks of it
(`review-repository/src/repository.rs`, `repository/comparison_plan.rs`). -/

namespace ProgressiveReviewer.Marks

open Hunks

/-- One byte in printable ASCII. -/
def escapeAscii (byte : UInt8) : List Char :=
  match byte with
  | 9 => ['\\', 't']
  | 13 => ['\\', 'r']
  | 10 => ['\\', 'n']
  | 39 => ['\\', '\'']
  | 34 => ['\\', '"']
  | 92 => ['\\', '\\']
  | _ =>
    if 32 ≤ byte ∧ byte < 127 then [Char.ofNat byte.toNat]
    else ['\\', 'x', Nat.digitChar (byte.toNat / 16), Nat.digitChar (byte.toNat % 16)]

/-- The characters a path shows for one of its own: ASCII and controls are escaped. -/
def escapeChar (char : Char) : List Char :=
  if char.toNat < 128 then escapeAscii (UInt8.ofNat char.toNat)
  else if char.toNat < 160 then
    ['\\', 'u', '{'] ++ Nat.toDigits 16 char.toNat ++ ['}']
  else [char]

/-- Readable UTF-8 that keeps escaped ASCII, controls, and invalid bytes. -/
def displayPath (path : RepoPath) : String :=
  match String.fromUTF8? ⟨path.toArray⟩ with
  | some text => String.ofList (text.toList.flatMap escapeChar)
  | none => String.ofList (path.flatMap escapeAscii)

/-- An exact repository snapshot identifier. -/
abbrev SnapshotId := String

/-- The repository entry type on one side of a change. -/
inductive FileKind where
  | absent
  | file
  | symlink
  | conflict
  | gitlink
  deriving DecidableEq, Repr

/-- Added and removed text lines in one diff. -/
structure DiffStatistics where
  linesAdded : Nat
  linesRemoved : Nat
  deriving DecidableEq, Repr

namespace DiffStatistics

def zero : DiffStatistics := ⟨0, 0⟩

def lines (statistics : DiffStatistics) : Nat := statistics.linesAdded + statistics.linesRemoved

/-- Read one line of a diff; only lines after a hunk header count. -/
def read (counted : Bool × DiffStatistics) (line : Bytes) : Bool × DiffStatistics :=
  let (inHunk, statistics) := counted
  if (bytesOf "diff --git ").isPrefixOf line then (false, statistics)
  else if (bytesOf "@@ ").isPrefixOf line then (true, statistics)
  else if inHunk && line.head? == some 43 then
    (inHunk, { statistics with linesAdded := statistics.linesAdded + 1 })
  else if inHunk && line.head? == some 45 then
    (inHunk, { statistics with linesRemoved := statistics.linesRemoved + 1 })
  else (inHunk, statistics)

/-- Count changed text lines in a unified diff. -/
def fromUnifiedDiff (diff : Bytes) : DiffStatistics :=
  ((diff.splitOnP isNewline).foldl read (false, zero)).2

end DiffStatistics

/-- One changed path in the current review. -/
structure ChangedFile where
  oldPath : Option RepoPath
  newPath : Option RepoPath
  oldKind : FileKind
  newKind : FileKind
  statistics : DiffStatistics
  /-- A changed file always has a path. -/
  named : (newPath.or oldPath).isSome
  deriving DecidableEq

/-- A text file, with its path before and after the change. -/
def ChangedFile.text (oldPath : Option RepoPath) (newPath : RepoPath) : ChangedFile :=
  ⟨oldPath, some newPath, .file, .file, .zero, rfl⟩

/-- The path used for review state. -/
def ChangedFile.reviewPath (file : ChangedFile) : RepoPath := (file.newPath.or file.oldPath).get file.named

/-- The exact identity of one repository snapshot. -/
inductive SnapshotIdentity where
  | jj (changeId : ReviewUnit) (snapshotId : SnapshotId)
  | git (baseTree : ReviewUnit) (snapshotId : SnapshotId)
  deriving DecidableEq, Repr

namespace SnapshotIdentity

/-- The stable identifier used to group review marks. -/
def reviewUnit : SnapshotIdentity → ReviewUnit
  | jj changeId _ => changeId
  | git baseTree _ => baseTree

/-- The exact identifier for the captured repository state. -/
def snapshotId : SnapshotIdentity → SnapshotId
  | jj _ snapshotId => snapshotId
  | git _ snapshotId => snapshotId

end SnapshotIdentity

/-- A complete file-list snapshot. -/
structure Snapshot where
  identity : SnapshotIdentity
  files : List ChangedFile

/-- The difference from a stored review baseline. -/
inductive Interdiff where
  | missingBaseline
  | diff (unified : Bytes)
  deriving DecidableEq, Repr

/-- Paths with the stored baselines that reviewed them. -/
abbrev BaselineComparisonPlan := Finset (SnapshotId × RepoPath)

inductive BaselineComparison where
  /-- The stored baseline no longer exists. -/
  | missing
  /-- The stored baseline exists, with statistics for paths that changed from it. -/
  | compared (pathStatistics : RepoPath → Option DiffStatistics)

/-- What the review state asks of a jj or Git repository. -/
structure Repository where
  currentIdentity : Except Error SnapshotIdentity
  diff : Snapshot → ChangedFile → Except Error Bytes
  fileAt : SnapshotId → RepoPath → Except Error Bytes
  baseFileAt : Snapshot → RepoPath → Except Error Bytes
  interdiff : SnapshotId → Snapshot → RepoPath → Except Error Interdiff
  compareBaselines : Snapshot → BaselineComparisonPlan →
    Except Error (SnapshotId → Option BaselineComparison)
  /-- The rows of one file's unified diff. -/
  parseFileDiff : Bytes → ChangedFile → List DiffRow

example : displayPath (bytesOf "a\tñ\u0085'") = "a\\tñ\\u\x7b85\x7d\\'" := by decide

example : DiffStatistics.fromUnifiedDiff (bytesOf "--- a/f\n+++ b/f\n@@ -1 +1,2 @@\n-a\n+b\n+c\n") =
    ⟨2, 1⟩ := by decide

end ProgressiveReviewer.Marks
