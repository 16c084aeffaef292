import ProgressiveReviewer.Hunks.Attribution
import ProgressiveReviewer.Hunks.Rows
import Mathlib.Data.List.Sort

/-! Edits of the reviewed version: accepting and reopening hunks, and moving it
onto a new base (`review-hunks/src/review.rs`). Loops of the source that carry a
rebuild are recursions over what they read. -/

namespace ProgressiveReviewer.Hunks

open Library Library.Extent

/-- The three versions of one file that decide which of its hunks are
reviewed: the base, the reviewed version and the current file, with who
accepted the reviewed version's changes. -/
structure HunkReview where
  base : Bytes
  reviewed : Bytes
  current : Bytes
  attribution : Attribution

/-- The lines one open hunk changes, numbered like the base and the current file. -/
structure ChangedLines where
  removed : List Nat
  added : List Nat
  /-- The hunk removes reviewed lines the base does not have. -/
  rewritesReviewed : Bool
  deriving DecidableEq, Repr

/-- Where the lines of the reviewed version sit in the base. -/
structure BaseNumbering where
  changes : List Change

/-- The base line behind a line of the reviewed version, or `none` for a line a
reviewed change added. -/
def BaseNumbering.baseLine (numbering : BaseNumbering) (reviewedLine : Nat) : Option Nat :=
  beforeLine numbering.changes reviewedLine

/-- The reviewed version after lines were accepted or reopened: the current file
when every line is reviewed, the base when none is, else some lines. -/
inductive ReviewedVersion where
  | current (attribution : Attribution)
  | base
  | partially (reviewed : Reviewed)
  deriving DecidableEq, Repr

namespace HunkReview

/-- Relate the versions of one file whose changes the reviewer accepted. -/
def new (base reviewed current : Bytes) : HunkReview :=
  ⟨base, reviewed, current, .reviewerOnly⟩

/-- Say who accepted the reviewed version's changes. -/
def attributed (review : HunkReview) (attribution : Attribution) : HunkReview :=
  { review with attribution }

variable (d : Differ) (self : HunkReview)

def version (reviewed : Reviewed) : ReviewedVersion :=
  if reviewed.text = self.current then .current reviewed.attribution
  else if reviewed.text = self.base then .base
  else .partially reviewed

/-- Accept what one hunk removes: `inside` are the edits within it. -/
def acceptRemoved (author : MarkAuthor) (span : HunkSpan) (inside : List Change)
    (rebuild : Rebuild) : Rebuild :=
  let reviewedChanges := d.changes self.base self.reviewed
  (inside.flatMap fun change => change.before.positions).foldl
    (fun rebuild line =>
      match beforeLine reviewedChanges (span.old.start + line) with
      | some base => rebuild.remove base author
      | none => rebuild) rebuild

/-- Who a current line of one hunk is credited to: an unchanged line inside the hunk
keeps its author. -/
def insideAuthor (author : MarkAuthor) (span : HunkSpan) (inside : List Change) (offset : Nat) :
    MarkAuthor :=
  match beforeLine inside offset with
  | some kept => self.attribution.addedBy (span.old.start + kept)
  | none => author

/-- Write the current lines of one hunk. -/
def acceptAdded (author : MarkAuthor) (span : HunkSpan) (inside : List Change)
    (added : List Bytes) (rebuild : Rebuild) : Rebuild :=
  added.zipIdx.foldl
    (fun rebuild entry => rebuild.push entry.1 (self.insideAuthor author span inside entry.2))
    rebuild

def reviewSpans (author : MarkAuthor) : Rebuild → Nat → List HunkSpan → Option Rebuild
  | rebuild, position, [] =>
    let reviewed := Lines.new self.reviewed
    rebuild.keep reviewed ⟨position, reviewed.length⟩ self.attribution
  | rebuild, position, span :: spans => do
    let reviewed := Lines.new self.reviewed
    let rebuild ← rebuild.keep reviewed ⟨position, span.old.start⟩ self.attribution
    let replaced ← reviewed.get span.old
    let added ← (Lines.new self.current).get span.new
    let inside := d.changes replaced.flatten added.flatten
    reviewSpans author
      (self.acceptAdded author span inside added (self.acceptRemoved d author span inside rebuild))
      span.old.stop spans

/-- Accept several hunks of the open diff at once, or none when two of
them overlap. The unchanged lines a hunk spans keep their authors. -/
def reviewAll («open» : List HunkSpan) (author : MarkAuthor) : Option ReviewedVersion := do
  let spans := «open».insertionSort fun a b => a.old.start ≤ b.old.start
  let rebuild ← self.reviewSpans d author (Rebuild.on self.attribution) 0 spans
  some (self.version (rebuild.finish d self.base))

/-- Accept one hunk of the open diff: the reviewed version takes the hunk's
current lines. -/
def review («open» : HunkSpan) (author : MarkAuthor) : Option ReviewedVersion :=
  self.reviewAll d [«open»] author

/-- How to number the reviewed version's lines like the base. -/
def baseNumbering : BaseNumbering := ⟨d.changes self.base self.reviewed⟩

/-- The lines each open hunk changes: the base lines it removes and the current
lines it adds. -/
def changedLines («open» : List HunkSpan) : List ChangedLines :=
  let reviewedChanges := d.changes self.base self.reviewed
  let openChanges := d.changes self.reviewed self.current
  «open».map fun span =>
    let own := openChanges.filter fun change => overlaps change.before span.old
    let lines := (own.flatMap fun change => change.before.positions).map (beforeLine reviewedChanges)
    { removed := lines.filterMap id
      added := own.flatMap fun change => change.after.positions
      rewritesReviewed := lines.any Option.isNone }

/-- Reopen one reviewed hunk: the reviewed version takes the hunk's base
lines back. The hunk's current lines match the reviewed version, so
they move to it untouched. -/
def unreview (reviewed : HunkSpan) : Option ReviewedVersion := do
  let «open» := d.changes self.reviewed self.current
  let range ← translate (backward «open») reviewed.new
  let reviewedLines := Lines.new self.reviewed
  let rebuild ← (Rebuild.on self.attribution).keep reviewedLines ⟨0, range.start⟩
    self.attribution
  let baseLines ← (Lines.new self.base).get reviewed.old
  let rebuild := baseLines.foldl
    (fun rebuild line => rebuild.push line self.attribution.default) rebuild
  let rebuild ← rebuild.keep reviewedLines ⟨range.stop, reviewedLines.length⟩ self.attribution
  some (self.version (rebuild.finish d self.base))

end HunkReview

/-- Where a reviewed change lands on the new base, when no upstream change meets it
and it comes after `position`. -/
def replayTarget (upstream : List Change) (position : Nat) (change : Change) : Option Range :=
  (translate (forward upstream) change.before).filter fun target => decide (position ≤ target.start)

def replayFrom (upstream : List Change) (attribution : Attribution)
    (reviewedLines baseLines : Lines) : Rebuild → Nat → List Change → Rebuild
  | rebuild, position, [] =>
    ((baseLines.rest position).getD []).foldl
      (fun rebuild line => rebuild.push line attribution.default) rebuild
  | rebuild, position, change :: changes =>
    match replayTarget upstream position change with
    | none => replayFrom upstream attribution reviewedLines baseLines rebuild position changes
    | some target =>
      let rebuild := ((baseLines.get ⟨position, target.start⟩).getD []).foldl
        (fun rebuild line => rebuild.push line attribution.default) rebuild
      let rebuild := (change.before.positions.zip target.positions).foldl
        (fun rebuild entry => rebuild.remove entry.2 (attribution.removedBy entry.1)) rebuild
      let rebuild :=
        (change.after.positions.zip ((reviewedLines.get change.after).getD [])).foldl
          (fun rebuild entry => rebuild.push entry.2 (attribution.addedBy entry.1)) rebuild
      replayFrom upstream attribution reviewedLines baseLines rebuild target.stop changes

/-- Move a reviewed version from the base it was built on to a new base. The
reviewed changes land on the new base with their authors; a reviewed
change that meets an upstream change is dropped, so its lines read as
unreviewed again rather than as silently reviewed. -/
def replay (d : Differ) (oldBase : Bytes) (reviewed : Reviewed) (newBase : Bytes) : Reviewed :=
  if oldBase = newBase then reviewed
  else
    (replayFrom (d.changes oldBase newBase) reviewed.attribution (Lines.new reviewed.text)
      (Lines.new newBase) (Rebuild.withDefault reviewed.attribution.default) 0
      (d.changes oldBase reviewed.text)).finish d newBase

end ProgressiveReviewer.Hunks
