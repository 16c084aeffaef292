import ProgressiveReviewer.Hunks.Patch
import ProgressiveReviewer.Marks.Snapshot

/-! The rows of one file's unified diff (`review-repository/src/diff.rs`). Numbers are natural
numbers here; the source counts lines in 32 bits. -/

namespace ProgressiveReviewer.Parsers

open Library Hunks Marks

def maxLineBytes : Nat := 16 * 1024 * 1024

inductive ConflictMarkerMode where
  | historicalDiffRows
  | currentConflictNotices
  deriving DecidableEq, Repr

/-- A hunk while its rows are read. -/
structure ActiveHunk where
  oldStart : Nat
  oldCount : Nat
  newStart : Nat
  newCount : Nat
  oldSeen : Nat
  newSeen : Nat
  deriving DecidableEq, Repr

structure DiffParser where
  rows : List DiffRow
  hunk : Option ActiveHunk
  deriving DecidableEq, Repr

def stripLast (line : List Char) (char : Char) : Option (List Char) :=
  if line.getLast? = some char then some line.dropLast else none

/-- The lines of a text, each without its newline and one carriage return before it. -/
def textLines (text : List Char) : List (List Char) :=
  (splitInclusive (· == '\n') text).map fun line =>
    match stripLast line '\n' with
    | none => line
    | some line => (stripLast line '\r').getD line

/-- Whether some characters stand together in a line. -/
def containsText (line part : List Char) : Bool := line.tails.any part.isPrefixOf

namespace ActiveHunk

def parseRange (value : List Char) : Option (Nat × Nat) :=
  match splitOnce [','] value with
  | some (start, count) => do some (← parseU32 start, ← parseU32 count)
  | none => do some (← parseU32 value, 1)

def parse (line : List Char) : Option ActiveHunk := do
  let header := ['@', '@', ' ', '-']
  let rest ← if header.isPrefixOf line then some (line.drop header.length) else none
  let (old, rest) ← splitOnce [' ', '+'] rest
  let (new, _) ← splitOnce [' ', '@', '@'] rest
  let (oldStart, oldCount) ← parseRange old
  let (newStart, newCount) ← parseRange new
  some ⟨oldStart, oldCount, newStart, newCount, 0, 0⟩

variable (hunk : ActiveHunk)

def header : DiffRow := .hunk hunk.oldStart hunk.oldCount hunk.newStart hunk.newCount

def isConflictMarker (line : List Char) : Bool :=
  ["<<<<<<< conflict", "%%%%%%% diff from:", "\\\\\\\\\\\\\\        to:", ">>>>>>> conflict"].any
    fun marker => containsText line marker.toList

def advance (marker : Option Char) : ActiveHunk :=
  match marker with
  | some ' ' => { hunk with oldSeen := hunk.oldSeen + 1, newSeen := hunk.newSeen + 1 }
  | some '-' => { hunk with oldSeen := hunk.oldSeen + 1 }
  | some '+' => { hunk with newSeen := hunk.newSeen + 1 }
  | _ => hunk

/-- Read one line of a hunk, and the row it makes. -/
def push (mode : ConflictMarkerMode) (line : List Char) : ActiveHunk × DiffRow :=
  if "\\ No newline at end of file".toList.isPrefixOf line then
    (hunk, .metadata (String.ofList line))
  else if mode = .currentConflictNotices ∧ isConflictMarker line = true then
    (hunk.advance line.head?, .notice .conflict (String.ofList line))
  else
    match line.head? with
    | some ' ' => (hunk.advance (some ' '), .context (hunk.oldStart + hunk.oldSeen)
        (hunk.newStart + hunk.newSeen) (String.ofList line))
    | some '-' => (hunk.advance (some '-'),
        .delete (hunk.oldStart + hunk.oldSeen) (String.ofList line))
    | some '+' => (hunk.advance (some '+'),
        .add (hunk.newStart + hunk.newSeen) (String.ofList line))
    | _ => (hunk, .notice .unsupported (String.ofList line))

def isComplete : Bool := hunk.oldSeen = hunk.oldCount && hunk.newSeen = hunk.newCount

end ActiveHunk

def binaryNotice : DiffRow := .notice .binary "Binary file; text diff is unavailable"

def countNotice : DiffRow :=
  .notice .unsupported "Unified diff hunk row count does not match its header"

namespace DiffParser

def metadataMarks : List String :=
  ["index ", "--- ", "+++ ", "old mode ", "new mode ", "new file mode ", "deleted file mode ",
    "similarity index ", "rename from ", "rename to "]

def isMetadata (line : List Char) : Bool :=
  line.isEmpty || metadataMarks.any fun mark => mark.toList.isPrefixOf line

def metadata (line : List Char) : DiffRow :=
  if "Binary files ".toList.isPrefixOf line || line = "GIT binary patch".toList then binaryNotice
  else if isMetadata line then .metadata (String.ofList line)
  else .notice .unsupported (String.ofList line)

variable (parser : DiffParser)

def finishHunk : DiffParser :=
  match parser.hunk with
  | some hunk =>
    { rows := if hunk.isComplete then parser.rows else parser.rows ++ [countNotice], hunk := none }
  | none => parser

def push (mode : ConflictMarkerMode) (line : List Char) : DiffParser :=
  if "diff --git ".toList.isPrefixOf line then
    { parser.finishHunk with
      rows := parser.finishHunk.rows ++ [.fileHeader none none (String.ofList line)] }
  else
    match ActiveHunk.parse line, parser.hunk with
    | some hunk, _ => { rows := parser.finishHunk.rows ++ [hunk.header], hunk := some hunk }
    | none, some hunk =>
      { rows := parser.rows ++ [(hunk.push mode line).2], hunk := some (hunk.push mode line).1 }
    | none, none => { parser with rows := parser.rows ++ [metadata line] }

def parseWithConflictMarkers (output : Bytes) (mode : ConflictMarkerMode) : List DiffRow :=
  if (output.splitOnP isNewline).any fun line => maxLineBytes < line.length then
    [.notice .unsupported "Diff line exceeded 16 MiB; text diff is unavailable"]
  else
    match String.fromUTF8? ⟨output.toArray⟩ with
    | none => [binaryNotice]
    | some text =>
      let parser : DiffParser := ⟨[], none⟩
      ((textLines text.toList).foldl (fun parser line => push parser mode line)
        parser).finishHunk.rows

end DiffParser

/-- A file header with the lossless paths of its file. -/
def withPaths (file : ChangedFile) : DiffRow → DiffRow
  | .fileHeader _ _ text => .fileHeader file.oldPath file.newPath text
  | row => row

def isConflictNotice : DiffRow → Bool
  | .notice .conflict _ => true
  | _ => false

/-- Parse the diff for a known file and preserve its lossless paths. -/
def parseFileDiff (output : Bytes) (file : ChangedFile) : List DiffRow :=
  if file.oldKind = .symlink ∨ file.newKind = .symlink then
    [.notice .unsupported "Symbolic link target changed; text diff is unavailable"]
  else if file.oldKind = .gitlink ∨ file.newKind = .gitlink then
    [.notice .unsupported "Git submodule changed; text diff is unavailable"]
  else
    let mode := if file.newKind = .conflict then ConflictMarkerMode.currentConflictNotices
      else .historicalDiffRows
    let rows := (DiffParser.parseWithConflictMarkers output mode).map (withPaths file)
    if mode = .currentConflictNotices ∧ rows.any isConflictNotice = false then
      .notice .conflict "File contains an unresolved conflict" :: rows
    else rows

end ProgressiveReviewer.Parsers
