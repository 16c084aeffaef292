import ProgressiveReviewer.Hunks.Review

/-! Telling a file's open hunks from its reviewed ones (`review-hunks/src/classify.rs`). -/

namespace ProgressiveReviewer.Hunks

open Library Library.Extent

/-- Whether the current file changed after its review mark was saved. -/
inductive MarkAge where
  /-- Lines the mark left open are simply not reviewed yet. -/
  | current
  | outdated
  deriving DecidableEq, Repr

/-- A reviewed change placed on all three versions. -/
structure PlacedChange where
  base : Range
  reviewed : Range
  current : Range
  deriving DecidableEq, Repr

/-- Whether one of the open hunk's own changes replaces lines of a reviewed
change, or, after the file changed, meets one; the unchanged lines between
its changes may hold reviewed lines untouched. -/
def rewritesReviewedLines (span : HunkSpan) («open» reviewed : List Change) (age : MarkAge) :
    Bool :=
  («open».filter fun change => overlaps change.before span.old).any fun change =>
    reviewed.any fun reviewed =>
      let replaces := !change.before.isEmpty && !reviewed.after.isEmpty &&
        overlaps reviewed.after change.before
      replaces || (age == .outdated && overlaps reviewed.after change.before)

/-- The base and current lines a reviewed hunk's rows show. -/
structure HunkRows where
  base : Lines
  current : Lines

def stripSuffix (line : Bytes) (byte : UInt8) : Option Bytes :=
  if line.getLast? = some byte then some line.dropLast else none

/-- A diff row's text: its marker and the line without its terminator. -/
def rowText (marker : Char) (line : Option Bytes) : String :=
  let line := line.getD []
  let line := (stripSuffix line 10).getD line
  let line := (stripSuffix line 13).getD line
  String.singleton marker ++ fromUtf8Lossy line

namespace HunkRows

variable (rows : HunkRows)

/-- The unchanged rows between two joined changes. -/
def between (previous placed : PlacedChange) : List DiffRow :=
  (List.range (placed.current.start - previous.current.stop)).map fun offset =>
    let newLine := previous.current.stop + offset
    .context (previous.base.stop + offset + 1) (newLine + 1) (rowText ' ' (rows.current.line newLine))

def changed (placed : PlacedChange) : List DiffRow :=
  (placed.base.positions.map fun line => .delete (line + 1) (rowText '-' (rows.base.line line))) ++
    placed.current.positions.map fun line => .add (line + 1) (rowText '+' (rows.current.line line))

def rowsFrom : Option PlacedChange → List PlacedChange → List DiffRow
  | _, [] => []
  | none, placed :: group => rows.changed placed ++ rowsFrom (some placed) group
  | some previous, placed :: group =>
    rows.between previous placed ++ rows.changed placed ++ rowsFrom (some placed) group

def hunk (group : List PlacedChange) : Option ReviewedHunk := do
  let first ← group.head?
  let last ← group.getLast?
  some
    { span := ⟨⟨first.base.start, last.base.stop⟩, ⟨first.current.start, last.current.stop⟩⟩
      rows := rows.rowsFrom none group }

end HunkRows

/-- The reviewed change on the current file, when no open change touches it. -/
def placeChange («open» : List Change) (change : Change) : Option PlacedChange :=
  (translate (forward «open») change.after).map fun current => ⟨change.before, change.after, current⟩

/-- Whether the next placed change joins the last one of a group into one hunk. -/
def joinsGroup («open» : List Change) (placed : Option PlacedChange) (group : List PlacedChange) :
    Bool :=
  match placed, group.getLast? with
  | some next, some last =>
    decide (next.base.start - last.base.stop ≤ 2 * context) &&
      !«open».any fun change => overlaps change.before ⟨last.reviewed.stop, next.reviewed.start⟩
  | _, _ => false

def reviewedHunksFrom (rows : HunkRows) («open» : List Change) :
    List PlacedChange → List Change → List ReviewedHunk
  | group, [] => (rows.hunk group).toList
  | group, change :: reviewed =>
    let placed := placeChange «open» change
    if joinsGroup «open» placed group then
      reviewedHunksFrom rows «open» (group ++ placed.toList) reviewed
    else (rows.hunk group).toList ++ reviewedHunksFrom rows «open» placed.toList reviewed

namespace HunkReview

variable (d : Differ) (self : HunkReview)

def reviewedHunks (reviewed «open» : List Change) : List ReviewedHunk :=
  reviewedHunksFrom ⟨Lines.new self.base, Lines.new self.current⟩ «open» [] reviewed

/-- Which hunks are open and which are reviewed, given the parsed open diff
(reviewed version to current file). A change of the reviewed version that no open
change touches is a reviewed hunk, and nearby ones join into one hunk as Git
joins hunks. -/
def hunks (openRows : List DiffRow) (age : MarkAge) : FileHunks :=
  if openRows.any DiffRow.isNotice then ⟨[], []⟩
  else
    let reviewed := d.changes self.base self.reviewed
    let changes := d.changes self.reviewed self.current
    { «open» := (openHunks openRows).map fun hunk =>
        { hunk with sinceReview := rewritesReviewedLines hunk.span changes reviewed age }
      reviewed := self.reviewedHunks reviewed changes }

end HunkReview

end ProgressiveReviewer.Hunks
