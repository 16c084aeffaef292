import ProgressiveReviewer.Presentation.OwnDiff

/-! Folding a diff hides nothing for good. -/

namespace ProgressiveReviewer.Presentation

open Library Library.Extent Hunks DiffPresentation Marks

variable {τ : Type}

section HidesNothing

variable {d : Differ} (valid : d.Valid) (review : HunkReview) (age : MarkAge) {rows : List DiffRow}
  {parts : List Section} (diff : FileDiff (Lines.new review.reviewed) (Lines.new review.current) rows parts)
  (apart : ∀ hunk ∈ (review.hunks d rows age).reviewed, ∀ row ∈ rows, ¬AddedIn hunk.span.new row)
  (painter : Painter τ) (old : Option (List τ)) {file : List τ}
  (size : file.length = (Lines.new review.current).length)
include valid diff apart size

/-- Folding hides nothing for good. A presentation of a diff with a hunk holds every line of the
current file once and in order, with every added and removed row of the diff, whatever is expanded
and contracted; contracting all rows restores it, and every line can be revealed. -/
theorem foldings_hide_nothing (foldings : List Folding) :
    let hunks := review.hunks d rows age
    let folded := (presentationOf painter rows old file).withHunks hunks
    let shown := foldings.foldl (fun self => self.apply painter) folded
    (∀ row ∈ folded.rows, Fits rows hunks.reviewed file row) ∧
      (parts ≠ [] →
        shown.rows.flatMap (heldBy (rowSpan rows hunks.reviewed)) = List.range file.length) ∧
      shown.rows.filterMap (changedRow rows) = rows.filter isChanged ∧
      shown.contractAll = folded ∧
      ∀ line < file.length, ∃ index row, (shown.revealLine painter line).2 = some index ∧
        (shown.revealLine painter line).1.rows[index]? = some row ∧
        (shown.revealLine painter line).1.showsLine (line + 1) row = true := by
  intro hunks folded shown
  obtain ⟨same, source, based, tiles⟩ := folded_based valid review age diff apart painter old size
  have listed : folded.hunks.reviewed = hunks.reviewed := by
    rw [show folded.hunks = hunks from congrArg DiffPresentation.hunks same]
  have fits : ∀ row ∈ folded.rows, Fits rows hunks.reviewed file row := source ▸ based.fits
  have opens : ∀ row ∈ folded.rows, ∀ part, folded.opens painter row = some part →
      OpensTo rows hunks.reviewed row part := by
    intro row mem part opened
    rw [← listed]
    have drawn : ∀ hunk ∈ folded.hunks.reviewed, hunk.rows ≠ [] ∧
        ShowsLines (Lines.new review.base) (Lines.new review.current) hunk.span.old.stop
          hunk.span.new.stop hunk.span.old.start hunk.span.new.start hunk.rows := by
      intro hunk mem
      rw [listed] at mem
      exact ⟨reviewed_rows_ne_nil valid review mem, reviewed_shows valid review mem⟩
    exact opensTo_of_fits rows drawn (listed ▸ fits row mem) opened
  have contracted : folded.Contracted painter :=
    ⟨fun row mem => fits_closed (fits row mem), based.spaced,
      fun row mem part opened => (opens row mem part opened).some_⟩
  obtain ⟨unfolded, ran, run⟩ := run_unfolded contracted foldings
  have shown_ : shown = { folded with rows := unfolded } := ran
  rw [shown_]
  refine ⟨fits, fun some_ => ?_, ?_, contractAll_unfolded contracted run, fun line bound => ?_⟩
  · have positions := (tiles some_).positions
    rw [Nat.sub_zero, ← List.range_eq_range'] at positions
    exact (run.flatMap_eq _ fun row mem part opened => (opens row mem part opened).held).trans positions
  · have kept := run.flatMap_eq (fun row => (changedRow rows row).toList)
      fun row mem part opened => by
        have opens := opens row mem part opened
        rw [opens.unchanged, List.flatMap_congr fun piece mem =>
          congrArg Option.toList (opens.kept piece mem)]
        exact List.flatMap_eq_nil_iff.mpr fun _ _ => rfl
    rw [← List.filterMap_eq_flatMap_toList, ← List.filterMap_eq_flatMap_toList] at kept
    refine kept.trans ?_
    have changed := based.changed
    rw [source] at changed
    exact changed
  · refine revealLine_shows ⟨?_, ?_⟩ bound
    · rw [show folded.view = _ from congrArg DiffPresentation.view same, presentationOf_eq]
    · rw [show folded.fileRows = _ from congrArg DiffPresentation.fileRows same, presentationOf_eq]

end HidesNothing

/-- The lines of a file as their own tokens. -/
def numbering : Painter Nat := ⟨fun _ => 0, fun _ => 0, 0⟩

theorem foldings_hide_nothing_joined :
    let hunks := twoReviewed.hunks twoReviewedDiffer twoReviewedRows .outdated
    let folded := (presentationOf numbering twoReviewedRows none [0, 1, 2, 3, 4]).withHunks hunks
    folded.rows = [.reviewedHunk 0, .diff 6 3, .diff 7 4] ∧
      let shown := [.expand 0, .expandAll].foldl (fun self => self.apply numbering) folded
      shown.rows.flatMap (heldBy (rowSpan twoReviewedRows hunks.reviewed)) = List.range 5 :=
  ⟨by decide, (foldings_hide_nothing twoReviewedDiffer_valid twoReviewed .outdated
    (fileDiff_own twoReviewedDiffer_valid "f" _ _ _)
    (apart_own twoReviewedDiffer_valid twoReviewed "f" _ .outdated) numbering none rfl
    [.expand 0, .expandAll]).2.1 (by decide)⟩

/-- A file whose only change is reviewed. -/
def allReviewed : HunkReview := .new (bytesOf "a\nb\n") (bytesOf "A\nb\n") (bytesOf "A\nb\n")

def allReviewedRows : List DiffRow :=
  unifiedRows trimmedDiffer "f" (.text none (bytesOf "f")) allReviewed.reviewed allReviewed.current

/-- Its line that no hunk holds is in no row. -/
theorem folded_hides_line :
    let hunks := allReviewed.hunks trimmedDiffer allReviewedRows .current
    let folded := (presentationOf numbering allReviewedRows none [0, 1]).withHunks hunks
    folded.rows = [.reviewedHunk 0] ∧
      folded.rows.flatMap (heldBy (rowSpan allReviewedRows hunks.reviewed)) = [0] ∧
      [0] ≠ List.range 2 := by
  decide

end ProgressiveReviewer.Presentation
