import ProgressiveReviewer.Presentation.Unfolded

/-! The presentation of a diff with its reviewed hunks folded, and what stays in sight while rows
are expanded and contracted. -/

namespace ProgressiveReviewer.Presentation

open Library Library.Extent Hunks DiffPresentation

variable {τ : Type}

/-! The reviewed hunks of a review. -/

section Reviewed

variable {d : Differ} (valid : d.Valid) (review : HunkReview) (rows : List DiffRow) (age : MarkAge)
include valid

theorem reviewed_pairwise : (review.hunks d rows age).reviewed.Pairwise fun a b =>
    a.span.Precedes b.span := by
  rw [HunkReview.hunks]
  split_ifs
  · exact .nil
  · exact reviewedHunksFrom_pairwise (valid review.reviewed review.current)
      (valid review.base review.reviewed) _

variable {rows age} {hunk : ReviewedHunk} (mem : hunk ∈ (review.hunks d rows age).reviewed)
include mem

theorem reviewed_shows : ShowsLines (Lines.new review.base) (Lines.new review.current)
    hunk.span.old.stop hunk.span.new.stop hunk.span.old.start hunk.span.new.start hunk.rows := by
  have opens := valid review.reviewed review.current
  rw [HunkReview.hunks] at mem
  split_ifs at mem
  · cases mem
  · dsimp only [HunkReview.reviewedHunks] at mem
    rw [reviewedHunksFrom_eq] at mem
    obtain ⟨group, held, mem⟩ := List.mem_flatMap.mp mem
    obtain ⟨first, last, isFirst, isLast, rfl⟩ := hunk_eq_some mem
    refine shows_rowsFrom (chained_placedGroups opens (valid review.base review.reviewed) ?_ group held)
      isFirst isLast
    exact ⟨⟨.nil, fun _ mem => (List.not_mem_nil mem).elim⟩, fun _ mem => by cases mem⟩

/-- A reviewed hunk lies within the current file. -/
theorem reviewed_bounds : hunk.span.new.start ≤ hunk.span.new.stop ∧
    hunk.span.new.stop ≤ (Lines.new review.current).length := by
  obtain ⟨whole, hullOf, -, le, placed, -⟩ := review.shows_of_mem valid mem
  have script := valid review.base review.reviewed
  have within : whole.after.stop ≤ (Lines.new review.reviewed).length := by
    obtain ⟨pre, e, es, post, eq, rfl⟩ := hullOf
    rw [eq] at script
    exact (script.hull_within.bounds (List.mem_append_right pre (.head _))).2.2.2.2.2.1
  have size := placed.size
  exact ⟨by omega, placed.stop_le (valid review.reviewed review.current) within (Nat.zero_le _)
    (Nat.zero_le _)⟩

theorem reviewed_rows_ne_nil : hunk.rows ≠ [] := by
  intro none_
  have shown := reviewed_shows valid review mem
  rw [none_] at shown
  obtain ⟨old, new⟩ := shown
  obtain ⟨whole, hullOf, same, -, placed, -⟩ := review.shows_of_mem valid mem
  have script := valid review.base review.reviewed
  have some_ : whole.before.start < whole.before.stop ∨ whole.after.start < whole.after.stop := by
    obtain ⟨pre, e, es, post, eq, rfl⟩ := hullOf
    rw [eq] at script
    exact (script.hull_within.bounds (List.mem_append_right pre (.head _))).2.2.2.2.2.2
  have size := placed.size
  rw [same] at old
  omega

end Reviewed

theorem reviewed_foldable {d : Differ} (valid : d.Valid) (review : HunkReview) {rows : List DiffRow}
    {age : MarkAge} (apart : ∀ hunk ∈ (review.hunks d rows age).reviewed, ∀ row ∈ rows,
      ¬AddedIn hunk.span.new row) {size : Nat} (whole : size = (Lines.new review.current).length)
    (index : Nat) (hunk : ReviewedHunk) (found : (review.hunks d rows age).reviewed[index]? = some hunk) :
    Foldable rows (review.hunks d rows age).reviewed size index hunk := by
  have mem := List.mem_of_getElem? found
  obtain ⟨proper, within⟩ := reviewed_bounds valid review mem
  refine ⟨found, proper, whole ▸ within, apart hunk mem, fun other later less at_ => ?_⟩
  obtain ⟨bound, rfl⟩ := List.getElem?_eq_some_iff.mp found
  obtain ⟨bound', rfl⟩ := List.getElem?_eq_some_iff.mp at_
  exact (List.pairwise_iff_getElem.mp (reviewed_pairwise valid review rows age) index other bound
    bound' less).2

section Folded

variable {d : Differ} (valid : d.Valid) (review : HunkReview) (age : MarkAge) {rows : List DiffRow}
  {parts : List Section} (diff : FileDiff (Lines.new review.reviewed) (Lines.new review.current) rows parts)
  (apart : ∀ hunk ∈ (review.hunks d rows age).reviewed, ∀ row ∈ rows, ¬AddedIn hunk.span.new row)
  (painter : Painter τ) (old : Option (List τ)) {file : List τ}
  (size : file.length = (Lines.new review.current).length)
include valid diff apart size

/-- The first presentation of a diff. -/
theorem folded_based :
    let hunks := review.hunks d rows age
    let folded := (presentationOf painter rows old file).withHunks hunks
    folded = { presentationOf painter rows old file with rows := folded.rows, hunks } ∧
      folded.source = rows ∧ Based hunks.reviewed file 0 folded ∧
      (parts ≠ [] → Tiles (rowSpan rows hunks.reviewed) file.length 0 folded.rows) := by
  intro hunks folded
  have foldable := reviewed_foldable valid review apart size
  let start : DiffPresentation τ := { presentationOf painter rows old file with hunks }
  obtain ⟨shown, made⟩ := foldFrom_rows start 0 hunks.reviewed
  have same : folded = { start with rows := shown } := made
  have source : start.source = rows := by
    by_cases none_ : parts = []
    · subst none_
      exact (presentationOf_none diff).2
    · exact (based_presentationOf diff none_ size [] 0).2.1
  have foldable : ∀ index hunk, hunks.reviewed[index]? = some hunk →
      Foldable start.source start.hunks.reviewed file.length (0 + index) hunk := by
    intro index hunk found
    rw [Nat.zero_add, source]
    exact foldable index hunk found
  have kept : folded.source = rows := by rw [same]; exact source
  refine ⟨by rw [same], kept, ?_⟩
  by_cases none_ : parts = []
  · subst none_
    have empty : start.rows = [] := (presentationOf_none diff).1
    have alone : folded.rows = (List.range' 0 hunks.reviewed.length).map .reviewedHunk :=
      foldFrom_nil empty hunks.reviewed 0 foldable
    have each : ∀ row ∈ folded.rows, ∃ hunk < hunks.reviewed.length, row = .reviewedHunk hunk := by
      intro row mem
      rw [alone] at mem
      obtain ⟨hunk, held, rfl⟩ := List.mem_map.mp mem
      exact ⟨hunk, by simpa using held, rfl⟩
    refine ⟨⟨fun row mem => ?_, ?_, ?_, fun hunk _ => Nat.zero_le hunk⟩, fun some_ => absurd rfl some_⟩
    · obtain ⟨hunk, bound, rfl⟩ := each row mem
      exact bound
    · exact spaced_of_alone fun row mem => by
        obtain ⟨hunk, -, rfl⟩ := each row mem
        rfl
    · obtain ⟨said, said_, plain, -⟩ := diff.shown
      have unchanged : rows.filter isChanged = [] := by
        rw [said_, List.flatMap_nil, List.append_nil, List.filter_eq_nil_iff]
        intro row mem
        have own := plain row mem
        have kept : isChanged row = false := by cases row <;> first | rfl | cases own
        exact Bool.eq_false_iff.mp kept
      rw [kept, unchanged, List.filterMap_eq_nil_iff]
      intro row mem
      obtain ⟨hunk, -, rfl⟩ := each row mem
      rfl
  · have shown := @based_presentationOf τ painter rows old file _ _ parts diff none_ size
      hunks.reviewed (0 + hunks.reviewed.length)
    have based : Based hunks.reviewed file (0 + hunks.reviewed.length) start :=
      ⟨shown.1.fits, shown.1.spaced, shown.1.changed, shown.1.folded⟩
    obtain ⟨based, tiles⟩ := based_foldFrom hunks.reviewed 0 foldable based (source.symm ▸ shown.2.2)
    rw [source] at tiles
    exact ⟨based, fun _ => tiles⟩

end Folded

/-! What stays while rows are expanded and contracted. -/

theorem fits_closed {source : List DiffRow} {reviewed : List ReviewedHunk} {file : List τ}
    {row : PresentedRow τ} (fits : Fits source reviewed file row) : isOpened row = false := by
  cases row <;> first | rfl | exact fits.elim

/-- What a row is expanded to shows the lines that it held, and no added or removed row. -/
structure OpensTo (source : List DiffRow) (reviewed : List ReviewedHunk) (row : PresentedRow τ)
    (part : List (PresentedRow τ)) : Prop where
  some_ : part ≠ []
  held : part.flatMap (heldBy (rowSpan source reviewed)) = heldBy (rowSpan source reviewed) row
  unchanged : changedRow source row = none
  kept : ∀ piece ∈ part, changedRow source piece = none

theorem opensTo_of_fits {self : DiffPresentation τ} {painter : Painter τ} {base current : Lines}
    {file : List τ} {row : PresentedRow τ} {part : List (PresentedRow τ)} (source : List DiffRow)
    (drawn : ∀ hunk ∈ self.hunks.reviewed, hunk.rows ≠ [] ∧ ShowsLines base current
      hunk.span.old.stop hunk.span.new.stop hunk.span.old.start hunk.span.new.start hunk.rows)
    (fits : Fits source self.hunks.reviewed file row) (opened : self.opens painter row = some part) :
    OpensTo source self.hunks.reviewed row part := by
  cases row with
  | gap start lines =>
    cases opened
    obtain ⟨pos, some_, -, -⟩ := fits
    refine ⟨?_, heldBy_expanded start pos lines, rfl, fun piece mem => ?_⟩
    · cases lines with
      | nil => exact absurd rfl some_
      | cons token lines => exact List.cons_ne_nil _ _
    · obtain ⟨line, -, rfl⟩ := List.mem_map.mp mem
      rfl
  | reviewedHunk hunk =>
    obtain ⟨reviewed, found, rfl⟩ := Option.map_eq_some_iff.mp opened
    obtain ⟨some_, shown⟩ := drawn reviewed (List.mem_of_getElem? found)
    refine ⟨?_, ?_, rfl, fun piece mem => ?_⟩
    · cases rows : reviewed.rows with
      | nil => exact absurd rows some_
      | cons row rows => exact List.cons_ne_nil _ _
    · rw [heldBy_reviewedLines shown, heldBy, rowSpan, found]
      rfl
    · obtain ⟨line, -, rfl⟩ := List.mem_map.mp mem
      rfl
  | _ => cases opened

/-- The presentation as it was made. -/
def Revealable (self : DiffPresentation τ) (file : List τ) : Prop :=
  self.view = .diff ∧ self.fileRows = some (fileRowsOf file)

section Reveal

variable {self : DiffPresentation τ} {painter : Painter τ} {file : List τ} {line : Nat}

theorem isExpanded_shows {displayLine : Nat} {row : PresentedRow τ}
    (expanded : isExpanded displayLine row = true) : self.showsLine displayLine row = true := by
  cases row <;> first | exact expanded | cases expanded

theorem isReviewedLine_shows {displayLine : Nat} {row : PresentedRow τ}
    (reviewed : isReviewedLine displayLine row = true) : self.showsLine displayLine row = true := by
  cases row <;> first | exact reviewed | cases reviewed

theorem exists_findIdx? {test : PresentedRow τ → Bool} {rows : List (PresentedRow τ)} {index : Nat}
    (found : rows.findIdx? test = some index) : ∃ row, rows[index]? = some row ∧ test row = true := by
  obtain ⟨bound, passes, -⟩ := List.findIdx?_eq_some_iff_getElem.mp found
  exact ⟨rows[index], List.getElem?_eq_getElem bound, passes⟩

theorem expand_rows (index : Nat) : ∃ rows, self.expand painter index = { self with rows } := by
  rw [expand_eq]
  split
  · exact ⟨_, rfl⟩
  · exact ⟨self.rows, rfl⟩

/-- A row found for a line shows it, and only the rows change. -/
theorem revealDiffLine_shows (self : DiffPresentation τ) (painter : Painter τ) (line : Nat) :
    (∃ rows, (self.revealDiffLine painter line).1 = { self with rows }) ∧
      ∀ index, (self.revealDiffLine painter line).2 = some index →
        ∃ row, (self.revealDiffLine painter line).1.rows[index]? = some row ∧
          self.showsLine (line + 1) row = true := by
  rw [revealDiffLine]
  dsimp only
  cases shown : self.rows.findIdx? (self.showsLine (line + 1)) with
  | some index =>
    refine ⟨⟨self.rows, rfl⟩, fun other same => ?_⟩
    cases same
    exact exists_findIdx? shown
  | none =>
    dsimp only
    cases self.rows.findIdx? (gapHolds (line + 1)) with
    | some index =>
      refine ⟨expand_rows index, fun other found => ?_⟩
      obtain ⟨row, here, expanded⟩ := exists_findIdx? found
      exact ⟨row, here, isExpanded_shows expanded⟩
    | none =>
      dsimp only
      cases self.foldedRowHolding line with
      | some index =>
        refine ⟨expand_rows index, fun other found => ?_⟩
        obtain ⟨row, here, reviewed⟩ := exists_findIdx? found
        exact ⟨row, here, isReviewedLine_shows reviewed⟩
      | none => exact ⟨⟨self.rows, rfl⟩, fun _ none_ => nomatch none_⟩

/-- Every line of the file can be shown: in the diff, else in the whole file. -/
theorem revealLine_shows (revealable : Revealable self file) (bound : line < file.length) :
    ∃ index row, (self.revealLine painter line).2 = some index ∧
      (self.revealLine painter line).1.rows[index]? = some row ∧
      (self.revealLine painter line).1.showsLine (line + 1) row = true := by
  obtain ⟨⟨rows, same⟩, found⟩ := revealDiffLine_shows self painter line
  rw [revealLine]
  generalize self.revealDiffLine painter line = revealed at same found ⊢
  obtain ⟨shown, place⟩ := revealed
  obtain rfl : shown = { self with rows } := same
  cases place with
  | some index =>
    obtain ⟨row, here, shows⟩ := found index rfl
    exact ⟨index, row, rfl, here, shows⟩
  | none =>
    have whole : showFile { self with rows } = some
        { self with rows := fileRowsOf file, fileRows := none, view := .file rows } := by
      rw [showFile]
      dsimp only
      rw [revealable.1, revealable.2]
      rfl
    dsimp only
    rw [whole]
    have held : ∃ row ∈ fileRowsOf file, isExpanded (line + 1) row = true := by
      refine ⟨.expanded (line + 1) file[line], List.mem_map.mpr ⟨(file[line], line), ?_, rfl⟩,
        decide_eq_true rfl⟩
      exact List.mem_zipIdx_iff_getElem?.mpr (List.getElem?_eq_getElem bound)
    cases at_ : (fileRowsOf file).findIdx? (isExpanded (line + 1)) with
    | none =>
      obtain ⟨row, mem, expanded⟩ := held
      exact nomatch (List.findIdx?_eq_none_iff.mp at_ row mem).symm.trans expanded
    | some index =>
      obtain ⟨row, here, expanded⟩ := exists_findIdx? at_
      exact ⟨index, row, at_, here, isExpanded_shows expanded⟩

end Reveal

end ProgressiveReviewer.Presentation
