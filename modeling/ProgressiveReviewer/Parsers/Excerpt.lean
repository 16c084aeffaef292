import Mathlib.Algebra.Ring.Nat
import ProgressiveReviewer.Parsers.FileDiff

/-! Excerpts of a parsed diff (`review-repository/src/excerpt.rs`). Numbers are natural numbers
here; the source counts lines in 32 bits. -/

namespace ProgressiveReviewer.Parsers

open Library Library.Extent Hunks

/-- Why a diff selection cannot become an excerpt. -/
inductive ExcerptError where
  | missingHeaders
  | noContent
  | notice
  deriving DecidableEq, Repr

/-- Row indices, both ends included. -/
structure Selection where
  first : Nat
  last : Nat
  deriving DecidableEq, Repr

def Selection.contains (selection : Selection) (index : Nat) : Bool :=
  decide (selection.first ≤ index) && decide (index ≤ selection.last)

def isHunk : DiffRow → Bool
  | .hunk _ _ _ _ => true
  | _ => false

namespace FileHeaders

/-- The header lines before the first hunk. -/
def lines : List DiffRow → List String
  | [] => []
  | .fileHeader _ _ text :: rows => text :: lines rows
  | .metadata text :: rows =>
    if "index ".toList.isPrefixOf text.toList then lines rows else text :: lines rows
  | .hunk _ _ _ _ :: _ => []
  | _ :: rows => lines rows

def complete (lines : List String) : Bool :=
  ["diff --git ", "--- ", "+++ "].all fun mark => lines.any fun line =>
    mark.toList.isPrefixOf line.toList

def read (rows : List DiffRow) : Except ExcerptError String :=
  if complete (lines rows) then .ok ("\n".intercalate (lines rows)) else .error .missingHeaders

end FileHeaders

structure ExcerptHunk where
  oldStart : Nat
  oldCount : Nat
  newStart : Nat
  newCount : Nat
  lines : List String
  deriving DecidableEq, Repr

/-- A row of a line in a hunk, with the next line on both sides. -/
structure HunkRow where
  row : DiffRow
  offset : Nat
  oldLine : Nat
  newLine : Nat
  selected : Bool
  deriving DecidableEq, Repr

def isOld : DiffRow → Bool
  | .context _ _ _ | .delete _ _ => true
  | _ => false

def isNew : DiffRow → Bool
  | .context _ _ _ | .add _ _ => true
  | _ => false

/-- The text of a row of a line. -/
def contentText : DiffRow → String
  | .context _ _ text | .delete _ text | .add _ text => text
  | _ => ""

namespace HunkRow

def oldCount (row : HunkRow) : Nat := if isOld row.row then 1 else 0

def newCount (row : HunkRow) : Nat := if isNew row.row then 1 else 0

def text (row : HunkRow) : String := contentText row.row

end HunkRow

def noNewlineText : String := "\\ No newline at end of file"

namespace ExcerptHunk

/-- The rows of lines among the rows of a hunk. -/
def content (selection : Selection) (rowOffset : Nat) : Nat → Nat → Nat → List DiffRow → List HunkRow
  | _, _, _, [] => []
  | offset, oldLine, newLine, row :: rows =>
    let here : HunkRow :=
      ⟨row, offset, oldLine, newLine, selection.contains (rowOffset + offset)⟩
    match row with
    | .context _ _ _ => here :: content selection rowOffset (offset + 1) (oldLine + 1) (newLine + 1) rows
    | .delete _ _ => here :: content selection rowOffset (offset + 1) (oldLine + 1) newLine rows
    | .add _ _ => here :: content selection rowOffset (offset + 1) oldLine (newLine + 1) rows
    | _ => content selection rowOffset (offset + 1) oldLine newLine rows

/-- A row's text, with the marker that comes after it. -/
def rowLines (rows : List DiffRow) (row : HunkRow) : List String :=
  row.text :: if rows[row.offset + 1]? = some (.metadata noNewlineText) then [noNewlineText] else []

def read (rows : List DiffRow) (rowOffset : Nat) (selection : Selection) (old new : Nat × Nat) :
    Option ExcerptHunk :=
  let oldLine := old.1 + if old.2 = 0 then 1 else 0
  let newLine := new.1 + if new.2 = 0 then 1 else 0
  let included := (content selection rowOffset 0 oldLine newLine rows).filter (·.selected)
  included.head?.map fun first =>
    let oldCount := (included.map (·.oldCount)).sum
    let newCount := (included.map (·.newCount)).sum
    { oldStart := first.oldLine - if oldCount = 0 then 1 else 0
      oldCount
      newStart := first.newLine - if newCount = 0 then 1 else 0
      newCount
      lines := included.flatMap (rowLines rows) }

def header (hunk : ExcerptHunk) : String :=
  "@@ -" ++ toString hunk.oldStart ++ "," ++ toString hunk.oldCount ++ " +" ++
    toString hunk.newStart ++ "," ++ toString hunk.newCount ++ " @@"

def text (hunk : ExcerptHunk) : String :=
  "\n" ++ hunk.header ++ "\n" ++ "\n".intercalate hunk.lines

end ExcerptHunk

namespace DiffExcerpt

/-- The selected hunks among the rows from an index on. -/
def hunks (selection : Selection) : Nat → List DiffRow → List ExcerptHunk
  | _, [] => []
  | index, .hunk oldStart oldCount newStart newCount :: rows =>
    let body := rows.takeWhile fun row => !isHunk row
    (ExcerptHunk.read body (index + 1) selection (oldStart, oldCount) (newStart, newCount)).toList ++
      hunks selection (index + 1) rows
  | index, _ :: rows => hunks selection (index + 1) rows

/-- The smallest valid excerpt for the selected rows. -/
def build (rows : List DiffRow) (selection : Selection) : Except ExcerptError String :=
  if rows.any DiffRow.isNotice then .error .notice
  else do
    let headers ← FileHeaders.read rows
    let hunks := hunks selection 0 rows
    if hunks = [] then .error .noContent
    else .ok (headers ++ String.join (hunks.map (·.text)))

end DiffExcerpt

end ProgressiveReviewer.Parsers
