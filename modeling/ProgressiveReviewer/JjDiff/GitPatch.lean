import ProgressiveReviewer.Library.LineStarts
import ProgressiveReviewer.Marks.Snapshot

/-! Git-style patches of changed files, with the hunks of jj's own algorithm
(`review-repository/src/repository/jj/patch.rs`, `git_path.rs`). -/

namespace ProgressiveReviewer.JjDiff

open Library Hunks Marks

/-- The normalized change for one file row. -/
inductive ChangeKind where
  | added
  | modified
  | deleted
  | renamed
  | typeChanged
  | conflict
  deriving DecidableEq, Repr

/-! Paths in headers. -/

structure GitPath where
  lead : Bytes
  path : RepoPath
  quote : Bool
  deriving DecidableEq, Repr

namespace GitPath

/-- Whether a byte stands for itself in a path without quotes: it is printable and neither a
quote nor a backslash. -/
def plain (byte : UInt8) : Bool := 33 ≤ byte && byte ≤ 126 && byte != 34 && byte != 92

def new (lead : Bytes) (path : RepoPath) : GitPath := ⟨lead, path, !path.all plain⟩

def withQuoting (path : GitPath) (quote : Bool) : GitPath := { path with quote := quote }

def digit (value : UInt8) : UInt8 := 48 + value

def escape (byte : UInt8) : Bytes :=
  if byte = 92 ∨ byte = 34 then [92, byte]
  else if byte = 9 then bytesOf "\\t"
  else if byte = 10 then bytesOf "\\n"
  else if byte = 13 then bytesOf "\\r"
  else if 32 ≤ byte ∧ byte ≤ 126 then [byte]
  else [92, digit (byte >>> 6), digit ((byte >>> 3) &&& 7), digit (byte &&& 7)]

/-- What `append_to` writes. -/
def bytes (path : GitPath) : Bytes :=
  if path.quote then [34] ++ path.lead ++ path.path.flatMap escape ++ [34]
  else path.lead ++ path.path

end GitPath

/-- One side of a change, as jj reads it. Its mode and hash are words. -/
structure GitDiffPart where
  mode : Option Bytes
  hash : Bytes
  isBinary : Bool
  contents : Bytes
  mode_line : ∀ word, mode = some word → 10 ∉ word
  hash_line : 10 ∉ hash

inductive DiffLineType where
  | context
  | removed
  | added
  deriving DecidableEq, Repr

structure UnifiedDiffHunk where
  left : Range
  right : Range
  /-- Lines as the tokens they are made of. -/
  lines : List (DiffLineType × List Bytes)

/-- jj's hunks between two texts with lines of context around them. -/
structure HunkAlgorithm where
  hunks : Bytes → Bytes → Nat → List UnifiedDiffHunk
  /-- The hunks list lines of the first text in its order, and lines of the second. -/
  left_lines : ∀ before after context, List.Sublist
    ((((hunks before after context).flatMap (·.lines)).filter (·.1 ≠ .added)).map (·.2.flatten))
    (Lines.new before)
  right_lines : ∀ before after context, List.Sublist
    ((((hunks before after context).flatMap (·.lines)).filter (·.1 ≠ .removed)).map (·.2.flatten))
    (Lines.new after)

/-- A changed file with its two sides: a side is there when it has a path. -/
structure GitPatch where
  oldPath : Option RepoPath
  newPath : Option RepoPath
  change : ChangeKind
  before : GitDiffPart
  after : GitDiffPart
  context : Nat
  /-- A changed file always has a path. -/
  named : (newPath.or oldPath).isSome
  old_side : before.mode.isSome = oldPath.isSome
  new_side : after.mode.isSome = newPath.isSome

namespace GitPatch

variable (patch : GitPatch)

def reviewPath : RepoPath := (patch.newPath.or patch.oldPath).get patch.named

/-- The paths of the two sides, one for the other where a side has none. -/
def oldPathOr : RepoPath := patch.oldPath.getD patch.reviewPath

def newPathOr : RepoPath := patch.newPath.getD patch.reviewPath

def old : GitPath := .new (bytesOf "a/") patch.oldPathOr

def new : GitPath := .new (bytesOf "b/") patch.newPathOr

def isBinary : Bool := patch.before.isBinary || patch.after.isBinary

def modeLines : List Bytes :=
  match patch.before.mode, patch.after.mode with
  | none, some mode => [bytesOf "new file mode " ++ mode]
  | some mode, none => [bytesOf "deleted file mode " ++ mode]
  | some old, some new =>
    if old ≠ new then [bytesOf "old mode " ++ old, bytesOf "new mode " ++ new] else []
  | none, none => []

def renameLines : List Bytes :=
  if patch.change = .renamed then
    [bytesOf "rename from " ++ (GitPath.new [] patch.oldPathOr).bytes,
      bytesOf "rename to " ++ (GitPath.new [] patch.newPathOr).bytes]
  else []

def sideLines : List Bytes :=
  if patch.isBinary then
    [bytesOf "Binary files " ++ patch.old.bytes ++ bytesOf " and " ++ patch.new.bytes ++
      bytesOf " differ"]
  else
    [bytesOf "--- " ++ (if patch.before.mode.isNone then bytesOf "/dev/null" else patch.old.bytes),
      bytesOf "+++ " ++ (if patch.after.mode.isNone then bytesOf "/dev/null" else patch.new.bytes)]

/-- The header, line by line. -/
def headers : List Bytes :=
  [bytesOf "diff --git " ++ patch.old.bytes ++ [32] ++ patch.new.bytes] ++ patch.modeLines ++
    patch.renameLines ++
    [bytesOf "index " ++ patch.before.hash ++ bytesOf ".." ++ patch.after.hash] ++ patch.sideLines

end GitPatch

/-- Where a range of lines starts, as a hunk header numbers it. -/
def headerStart (range : Range) : Nat :=
  range.start + if range.stop ≤ range.start then 0 else 1

def DiffLineType.marker : DiffLineType → UInt8
  | .context => 32
  | .removed => 45
  | .added => 43

/-- One line of a hunk, with a remark where the text ends without a newline. -/
def writeLine (line : DiffLineType × List Bytes) : Bytes :=
  let text := line.1.marker :: line.2.flatten
  text ++ if text.getLast? = some 10 then [] else noFinalNewline

def writeHunk (hunk : UnifiedDiffHunk) : Bytes :=
  bytesOf "@@ -" ++ decimal (headerStart hunk.left) ++ bytesOf "," ++
    decimal (hunk.left.stop - hunk.left.start) ++ bytesOf " +" ++ decimal (headerStart hunk.right) ++
    bytesOf "," ++ decimal (hunk.right.stop - hunk.right.start) ++ bytesOf " @@\n" ++
    hunk.lines.flatMap writeLine

namespace GitPatch

variable (algorithm : HunkAlgorithm) (patch : GitPatch)

/-- The hunks of a change of text. -/
def hunks : List UnifiedDiffHunk :=
  if patch.isBinary then []
  else algorithm.hunks patch.before.contents patch.after.contents patch.context

def render : Bytes := closeAll 10 patch.headers ++ (patch.hunks algorithm).flatMap writeHunk

/-- How many lines of a kind the hunks list. -/
def counted (kind : DiffLineType) : Nat :=
  ((patch.hunks algorithm).flatMap (·.lines)).countP (·.1 = kind)

/-- The line counts of the change. -/
def statistics : DiffStatistics :=
  ⟨patch.counted algorithm .added, patch.counted algorithm .removed⟩

/-- The paths of the changed file. -/
def paths : List RepoPath := patch.oldPath.toList ++ patch.newPath.toList

end GitPatch

end ProgressiveReviewer.JjDiff
