import ProgressiveReviewer.Explore.Turn
import ProgressiveReviewer.Hunks.Lines
import Mathlib.Order.Interval.Finset.Nat

/-! The changed lines that locations name in one file, and the files on which the marks of a
round's turns apply (`review-explore/src/named_lines.rs`, `markable.rs`). Which diffs are still the
round's is read from the repository, and given here. -/

namespace ProgressiveReviewer.Explore

open Hunks Marks

/-- The changed lines that some locations of one file name. -/
inductive NamedLines where
  | whole
  /-- Zero-based lines on each side. -/
  | lines (selection : LineSelection)
  deriving DecidableEq

namespace NamedLines

/-- The lines of the locations, added to those named so far. -/
def extend (selection : LineSelection) : List CodeLocation → NamedLines
  | [] => .lines selection
  | location :: locations =>
    match location.lines, location.side with
    | none, _ => .whole
    | some range, .old => extend { selection with
        removed := selection.removed ∪ Finset.Ico (range.firstLine - 1) range.lastLine } locations
    | some range, .new => extend { selection with
        added := selection.added ∪ Finset.Ico (range.firstLine - 1) range.lastLine } locations

/-- The lines that locations of one file name. -/
def of (locations : List CodeLocation) : NamedLines := extend ⟨∅, ∅⟩ locations

/-- The lines that those of the locations in a file name. -/
def inFile (file : ChangedFile) (locations : List CodeLocation) : Option NamedLines :=
  match locations.filter fun location => location.names file with
  | [] => none
  | named => some (of named)

/-- Whether a zero-based line is named. -/
def contains (named : NamedLines) (side : SourceSide) (line : Nat) : Bool :=
  match named, side with
  | whole, _ => true
  | lines selection, .old => line ∈ selection.removed
  | lines selection, .new => line ∈ selection.added

end NamedLines

def NotRelevantMark.locations (marks : List NotRelevantMark) : List CodeLocation :=
  marks.map (·.location)

/-- The files on which the marks of a round apply. -/
inductive MarkableFiles where
  /-- The snapshot is the round's. -/
  | all
  /-- The files whose diff is still the round's, and those whose diff could not be read. -/
  | unchanged (files unread : Finset RepoPath)
  deriving DecidableEq

namespace MarkableFiles

def allows (markable : MarkableFiles) (file : ChangedFile) : Bool :=
  match markable with
  | all => true
  | unchanged files _ => file.reviewPath ∈ files

/-- Without the files whose diff had changed when the agent wrote its turn. -/
def excluding (markable : MarkableFiles) (snapshot : Snapshot) (diverged : List String) :
    MarkableFiles :=
  if diverged.isEmpty then markable
  else unchanged
    (((snapshot.files.filter markable.allows).filter fun file =>
      !diverged.contains (displayPath file.reviewPath)).map (·.reviewPath)).toFinset
    (match markable with
      | all => ∅
      | unchanged _ unread => unread)

end MarkableFiles

end ProgressiveReviewer.Explore
