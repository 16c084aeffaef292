import ProgressiveReviewer.Presentation.Rows
import ProgressiveReviewer.Hunks.Drawn

/-! The rows of a diff with its reviewed hunks folded: they tile the lines of the current file. -/

namespace ProgressiveReviewer.Presentation

open Library Library.Extent Hunks

variable {τ : Type}

/-- The lines of the current file, counted from zero, that a row shows or stands for. -/
def rowSpan (source : List DiffRow) (reviewed : List ReviewedHunk) : PresentedRow τ → Option Extent
  | .diff index _ => (source[index]?.bind DiffPresentation.newLineOf).map fun line => ⟨line - 1, line⟩
  | .gap start lines => some ⟨start - 1, start - 1 + lines.length⟩
  | .expanded line _ => some ⟨line - 1, line⟩
  | .reviewedHunk hunk => reviewed[hunk]?.map (·.span.new)
  | .reviewedLine _ _ newLine _ => newLine.map fun line => ⟨line - 1, line⟩

def isGap : PresentedRow τ → Bool
  | .gap _ _ => true
  | _ => false

/-- A row of a presentation with nothing expanded: its tokens are those of the file's lines. -/
def Fits (source : List DiffRow) (reviewed : List ReviewedHunk) (file : List τ) :
    PresentedRow τ → Prop
  | .diff index tokens => ∃ row, source[index]? = some row ∧
      ∀ line, DiffPresentation.newLineOf row = some line → 0 < line ∧ file[line - 1]? = some tokens
  | .gap start lines => 0 < start ∧ lines ≠ [] ∧ start - 1 + lines.length ≤ file.length ∧
      lines = cut file ⟨start - 1, start - 1 + lines.length⟩
  | .reviewedHunk hunk => hunk < reviewed.length
  | .expanded _ _ | .reviewedLine _ _ _ _ => False

variable {source : List DiffRow} {reviewed : List ReviewedHunk} {file : List τ}

/-- A row added in the current file that a range of lines holds. -/
def AddedIn (range : Range) : DiffRow → Prop
  | .add line _ => range.start < line ∧ line ≤ range.stop
  | _ => False

section SplitGap

variable {start : Nat} {lines : List τ} {hole : Range}

/-- The parts of an unchanged section ahead of a number of its lines and behind another. -/
theorem splitGap_eq {folded : Range} (ahead behind : Nat)
    (front : max start (min folded.start (start + lines.length)) = start + ahead)
    (back : max start (min folded.stop (start + lines.length)) = start + behind)
    (le : ahead ≤ behind) (within : behind ≤ lines.length) :
    DiffPresentation.splitGap start lines folded =
      (if 0 < ahead then [.gap start (lines.take ahead)] else []) ++
        if behind < lines.length then [.gap (start + behind) (lines.drop behind)] else [] := by
  rw [DiffPresentation.splitGap]
  simp only [front, back, Nat.add_sub_cancel_left, List.take_take, min_eq_left le,
    List.take_eq_nil_iff, List.drop_eq_nil_iff]
  congr 1
  · by_cases none : 0 < ahead
    · have some_ : lines ≠ [] := fun same => by
        rw [same, List.length_nil] at within
        omega
      rw [if_pos none, if_neg (by simp [some_]; omega)]
    · rw [if_neg none, if_pos (Or.inl (by omega))]
  · by_cases short : behind < lines.length
    · rw [if_pos short, if_neg (Nat.not_le.mpr short)]
    · rw [if_neg short, if_pos (Nat.not_lt.mp short)]

/-- What a fold leaves of an unchanged section. -/
theorem carves_gap (pos : 0 < start) (some_ : lines ≠ []) (proper : hole.start ≤ hole.stop)
    (self : DiffPresentation τ) :
    Carves (rowSpan source reviewed) isGap hole (self.outside ⟨hole.start + 1, hole.stop + 1⟩)
      (.gap start lines) := by
  have size : 0 < lines.length := List.length_pos_of_ne_nil some_
  refine ⟨fun apart => ?_, ?_, ?_, ?_⟩
  · rw [DiffPresentation.outside]
    rcases apart _ rfl with ends | begins
    · dsimp only at ends
      rw [splitGap_eq lines.length lines.length (by dsimp only; omega)
        (by dsimp only; omega) (Nat.le_refl _) (Nat.le_refl _), if_pos size,
        if_neg (Nat.lt_irrefl _), List.take_length]
      rfl
    · dsimp only at begins
      rw [splitGap_eq 0 0 (by dsimp only; omega)
        (by dsimp only; omega) (Nat.le_refl _) (Nat.zero_le _), if_neg (Nat.lt_irrefl _),
        if_pos size]
      rfl
  · rintro held same reaches begins
    cases same
    dsimp only at reaches begins
    refine ⟨_, _, splitGap_eq (hole.start + 1 - start)
      (min (hole.stop + 1 - start) lines.length) (by dsimp only; omega)
      (by dsimp only; omega) (by omega) (by omega), ?_, ?_⟩
    · unfold Piece
      dsimp only
      by_cases before : start - 1 < hole.start
      · rw [if_pos before, if_pos (by omega)]
        refine ⟨_, rfl, ?_⟩
        rw [rowSpan, List.length_take]
        congr 2
        omega
      · rw [if_neg before, if_neg (by omega)]
    · unfold Piece
      dsimp only
      by_cases beyond : hole.stop < start - 1 + lines.length
      · rw [if_pos beyond, if_pos (by omega)]
        refine ⟨_, rfl, ?_⟩
        rw [rowSpan, List.length_drop]
        congr 2 <;> omega
      · rw [if_neg beyond, if_neg (by omega)]
  · rintro held same -
    cases same
    dsimp only
    omega
  · intro piece mem _
    refine ⟨rfl, ?_⟩
    simp only [DiffPresentation.outside, DiffPresentation.splitGap] at mem
    rcases List.mem_append.mp mem with mem | mem <;> split_ifs at mem <;>
      first | (cases List.mem_singleton.mp mem; rfl) | cases mem

end SplitGap

/-- What a fold leaves of a row that is not folded into an earlier hunk. -/
theorem carves_outside (self : DiffPresentation τ) {hole : Range} (proper : hole.start ≤ hole.stop)
    (apart : ∀ row ∈ self.source, ¬AddedIn hole row) {row : PresentedRow τ}
    (fits : Fits self.source reviewed file row)
    (later : ∀ hunk, row = .reviewedHunk hunk → ∀ other, reviewed[hunk]? = some other →
      hole.stop ≤ other.span.new.start) :
    Carves (rowSpan self.source reviewed) isGap hole
      (self.outside ⟨hole.start + 1, hole.stop + 1⟩) row := by
  cases row with
  | diff index tokens =>
    obtain ⟨shown, found, numbered⟩ := fits
    have spanned : rowSpan self.source reviewed (.diff index tokens) =
        (DiffPresentation.newLineOf shown).map fun line => ⟨line - 1, line⟩ := by
      rw [rowSpan, found]
      rfl
    cases shown with
    | context oldLine line text =>
      have pos := (numbered line rfl).1
      by_cases inside : hole.start < line ∧ line ≤ hole.stop
      · refine carves_dropped ?_ spanned ?_ inside.2 ?_
        · rw [DiffPresentation.outside, found]
          exact if_pos ((holds_iff _ _).mpr ⟨inside.1, Nat.lt_succ_of_le inside.2⟩)
        · exact Nat.le_sub_one_of_lt inside.1
        · exact Nat.sub_one_lt_of_lt pos
      · refine carves_whole ?_ ?_ ?_ rfl
        · rw [DiffPresentation.outside, found]
          refine if_neg fun held => inside ?_
          obtain ⟨low, high⟩ := (holds_iff _ _).mp held
          exact ⟨low, Nat.le_of_lt_succ high⟩
        · intro held own
          cases spanned.symm.trans own
          dsimp only
          omega
        · intro held own _
          cases spanned.symm.trans own
          exact Nat.sub_one_lt_of_lt pos
    | add line text =>
      have pos := (numbered line rfl).1
      have clear := apart _ (List.mem_of_getElem? found)
      rw [AddedIn] at clear
      refine carves_whole ?_ ?_ ?_ rfl
      · rw [DiffPresentation.outside, found]
      · intro held own
        cases spanned.symm.trans own
        dsimp only
        omega
      · intro held own _
        cases spanned.symm.trans own
        exact Nat.sub_one_lt_of_lt pos
    | _ =>
      refine carves_whole (by rw [DiffPresentation.outside, found]) (fun held own => ?_)
        (fun held own _ => ?_) rfl <;> exact nomatch spanned.symm.trans own
  | gap start lines => exact carves_gap fits.1 fits.2.1 proper self
  | reviewedHunk hunk =>
    have behind : ∀ held, rowSpan self.source reviewed (.reviewedHunk hunk : PresentedRow τ) =
        some held → hole.stop ≤ held.start := by
      intro held own
      obtain ⟨other, found, rfl⟩ := Option.map_eq_some_iff.mp own
      exact later hunk rfl other found
    exact carves_whole rfl (fun held own => Or.inr (behind held own))
      (fun held own before => absurd before (Nat.not_lt.mpr (behind held own))) rfl
  | expanded line tokens => exact fits.elim
  | reviewedLine hunk row newLine tokens => exact fits.elim

theorem fits_take {start count : Nat} {lines : List τ}
    (fits : Fits source reviewed file (.gap start lines)) (some_ : lines.take count ≠ []) :
    Fits source reviewed file (.gap start (lines.take count)) := by
  obtain ⟨pos, -, bound, same⟩ := fits
  have size : (lines.take count).length = min count lines.length := List.length_take
  refine ⟨pos, some_, by rw [size]; omega, ?_⟩
  rw [size]
  conv_lhs => rw [same]
  simp only [cut, Nat.add_sub_cancel_left, List.take_take]

theorem fits_drop {start count : Nat} {lines : List τ}
    (fits : Fits source reviewed file (.gap start lines)) (some_ : lines.drop count ≠ []) :
    Fits source reviewed file (.gap (start + count) (lines.drop count)) := by
  obtain ⟨pos, -, bound, same⟩ := fits
  have size : (lines.drop count).length = lines.length - count := List.length_drop
  have left : 0 < (lines.drop count).length := List.length_pos_of_ne_nil some_
  refine ⟨by omega, some_, by rw [size]; omega, ?_⟩
  rw [size]
  conv_lhs => rw [same]
  simp only [cut, Nat.add_sub_cancel_left, List.drop_take, List.drop_drop]
  rw [show start - 1 + count = start + count - 1 by omega]

/-- A row that a fold leaves fits as well. -/
theorem fits_outside (self : DiffPresentation τ) (folded : Range) {row piece : PresentedRow τ}
    (fits : Fits self.source reviewed file row) (mem : piece ∈ self.outside folded row) :
    Fits self.source reviewed file piece := by
  cases row with
  | diff index tokens =>
    rw [DiffPresentation.outside] at mem
    split at mem
    · split_ifs at mem with inside
      · cases mem
      · exact List.mem_singleton.mp mem ▸ fits
    · exact List.mem_singleton.mp mem ▸ fits
  | gap start lines =>
    simp only [DiffPresentation.outside, DiffPresentation.splitGap] at mem
    rcases List.mem_append.mp mem with mem | mem
    · split_ifs at mem with empty
      · cases mem
      · rw [List.mem_singleton.mp mem]
        rw [List.take_take] at empty ⊢
        exact fits_take fits empty
    · split_ifs at mem with empty
      · cases mem
      · rw [List.mem_singleton.mp mem]
        have fits := fits_drop fits empty
        rwa [Nat.add_sub_cancel' (Nat.le_max_left _ _)] at fits
  | reviewedHunk hunk => exact List.mem_singleton.mp mem ▸ fits
  | expanded line tokens => exact fits.elim
  | reviewedLine hunk row newLine tokens => exact fits.elim

/-! Folding one hunk after another, the last one first. -/

def isChanged : DiffRow → Bool
  | .add _ _ | .delete _ _ => true
  | _ => false

/-- The added or removed row that a row shows. -/
def changedRow (source : List DiffRow) : PresentedRow τ → Option DiffRow
  | .diff index _ => source[index]?.filter isChanged
  | _ => none

/-- What holds of the rows with nothing expanded, with the hunks from a number on folded. -/
structure Based (reviewed : List ReviewedHunk) (file : List τ) (from_ : Nat)
    (base : DiffPresentation τ) : Prop where
  fits : ∀ row ∈ base.rows, Fits base.source reviewed file row
  spaced : Spaced isGap base.rows
  /-- Every added and removed row of the diff is there. -/
  changed : base.rows.filterMap (changedRow base.source) = base.source.filter isChanged
  folded : ∀ hunk, .reviewedHunk hunk ∈ base.rows → from_ ≤ hunk

theorem changed_outside (self : DiffPresentation τ) (folded : Range) (row : PresentedRow τ) :
    (self.outside folded row).filterMap (changedRow self.source) =
      (changedRow self.source row).toList := by
  have whole : ([row].filterMap (changedRow self.source)) = (changedRow self.source row).toList := by
    cases own : changedRow self.source row <;> simp [own]
  cases row with
  | diff index tokens =>
    rw [DiffPresentation.outside]
    split
    · next found =>
      split_ifs with inside
      · rw [changedRow, found]
        rfl
      · exact whole
    · exact whole
  | gap start lines =>
    simp only [DiffPresentation.outside, DiffPresentation.splitGap]
    split_ifs <;> rfl
  | _ => exact whole

theorem changed_insertAt {span : PresentedRow τ → Option Extent} (position hunk : Nat)
    (rows : List (PresentedRow τ)) :
    (insertAt span position (.reviewedHunk hunk) rows).filterMap (changedRow source) =
      rows.filterMap (changedRow source) := by
  induction rows with
  | nil => rfl
  | cons row rows ih =>
    rw [insertAt]
    split_ifs
    · rfl
    · rw [List.filterMap_cons, List.filterMap_cons, ih]

/-- A fold, as a part carved out of the rows. -/
theorem foldReviewed_rows (self : DiffPresentation τ) (hunk : Nat) (lines : Range)
    (fits : ∀ row ∈ self.rows, Fits self.source self.hunks.reviewed file row) :
    (self.foldReviewed hunk lines).rows =
      carveOut (rowSpan self.source self.hunks.reviewed) lines
        (self.outside ⟨lines.start + 1, lines.stop + 1⟩) (.reviewedHunk hunk) self.rows := by
  refine insertIdx_findIdx? _ fun row mem => ?_
  obtain ⟨whole, held, mem⟩ := List.mem_flatMap.mp mem
  have fits := fits_outside self _ (fits whole held) mem
  cases row with
  | diff index tokens =>
    obtain ⟨shown, found, numbered⟩ := fits
    rw [DiffPresentation.firstNewLine, rowSpan, found]
    cases shown with
    | context oldLine line text =>
      have pos := (numbered line rfl).1
      simp [DiffPresentation.newLineOf]
      omega
    | add line text =>
      have pos := (numbered line rfl).1
      simp [DiffPresentation.newLineOf]
      omega
    | _ => rfl
  | gap start lines =>
    have pos := fits.1
    simp [DiffPresentation.firstNewLine, rowSpan]
    omega
  | reviewedHunk hunk =>
    rw [DiffPresentation.firstNewLine, rowSpan]
    cases self.hunks.reviewed[hunk]? <;> simp
  | expanded line tokens => exact fits.elim
  | reviewedLine hunk row newLine tokens => exact fits.elim

theorem mem_insertAt {α : Type*} {span : α → Option Extent} {position : Nat} {new item : α}
    {items : List α} (mem : item ∈ insertAt span position new items) : item = new ∨ item ∈ items := by
  induction items with
  | nil => exact Or.inl (List.mem_singleton.mp mem)
  | cons first items ih =>
    rw [insertAt] at mem
    split_ifs at mem
    · exact List.mem_cons.mp mem
    · rcases List.mem_cons.mp mem with rfl | mem
      · exact Or.inr (.head _)
      · exact (ih mem).imp_right (.tail _)

theorem reviewedHunk_outside {self : DiffPresentation τ} {folded : Range} {hunk : Nat}
    {row : PresentedRow τ} (mem : .reviewedHunk hunk ∈ self.outside folded row) :
    row = .reviewedHunk hunk := by
  cases row with
  | diff index tokens =>
    rw [DiffPresentation.outside] at mem
    split at mem
    · split_ifs at mem <;> simp at mem
    · simp at mem
  | gap start lines =>
    simp only [DiffPresentation.outside, DiffPresentation.splitGap] at mem
    rcases List.mem_append.mp mem with mem | mem <;> split_ifs at mem <;> simp at mem
  | _ => exact (List.mem_singleton.mp mem).symm

/-- What a fold needs to know about its hunk. -/
structure Foldable (source : List DiffRow) (reviewed : List ReviewedHunk) (size index : Nat)
    (hunk : ReviewedHunk) : Prop where
  own : reviewed[index]? = some hunk
  proper : hunk.span.new.start ≤ hunk.span.new.stop
  within : hunk.span.new.stop ≤ size
  apart : ∀ row ∈ source, ¬AddedIn hunk.span.new row
  later : ∀ other later, index < other → reviewed[other]? = some later →
    hunk.span.new.stop ≤ later.span.new.start

section Fold

variable {self : DiffPresentation τ} {index : Nat} {hunk : ReviewedHunk}

theorem based_foldReviewed (listed : self.hunks.reviewed = reviewed)
    (foldable : Foldable self.source reviewed file.length index hunk)
    (based : Based reviewed file (index + 1) self)
    (tiles : Tiles (rowSpan self.source reviewed) file.length 0 self.rows) :
    Based reviewed file index (self.foldReviewed index hunk.span.new) ∧
      Tiles (rowSpan self.source reviewed) file.length 0
        (self.foldReviewed index hunk.span.new).rows := by
  subst listed
  have carves : ∀ row ∈ self.rows, Carves (rowSpan self.source self.hunks.reviewed) isGap
      hunk.span.new (self.outside ⟨hunk.span.new.start + 1, hunk.span.new.stop + 1⟩) row := by
    intro row mem
    refine carves_outside self foldable.proper foldable.apart (based.fits row mem) ?_
    rintro other rfl later found
    exact foldable.later other later (based.folded other mem) found
  have made := foldReviewed_rows self index hunk.span.new based.fits
  have spans : rowSpan self.source self.hunks.reviewed (.reviewedHunk index : PresentedRow τ) =
      some hunk.span.new := by
    rw [rowSpan, foldable.own]
    rfl
  have held : ∀ row ∈ (self.foldReviewed index hunk.span.new).rows, row = .reviewedHunk index ∨
      ∃ whole ∈ self.rows,
        row ∈ self.outside ⟨hunk.span.new.start + 1, hunk.span.new.stop + 1⟩ whole := by
    intro row mem
    rw [made, carveOut] at mem
    exact (mem_insertAt mem).imp_right List.mem_flatMap.mp
  refine ⟨⟨?_, ?_, ?_, ?_⟩, ?_⟩
  · intro row mem
    rcases held row mem with rfl | ⟨whole, mem, piece⟩
    · exact (List.getElem?_eq_some_iff.mp foldable.own).1
    · exact fits_outside self _ (based.fits whole mem) piece
  · rw [made]
    exact spaced_carveOut carves foldable.proper foldable.within rfl (Nat.zero_le _) tiles based.spaced
  · rw [made, carveOut]
    refine (changed_insertAt _ _ _).trans ?_
    rw [List.filterMap_flatMap, DiffPresentation.foldReviewed_source, ← based.changed]
    simp only [changed_outside]
    exact (List.filterMap_eq_flatMap_toList ..).symm
  · intro other mem
    rcases held _ mem with same | ⟨whole, mem, piece⟩
    · cases same
      exact Nat.le_refl _
    · exact Nat.le_of_succ_le (based.folded other (reviewedHunk_outside piece ▸ mem))
  · rw [made]
    exact tiles_carveOut carves foldable.proper foldable.within spans (Nat.zero_le _) tiles

end Fold

/-- Hunks folded one after another, the last one first. -/
def foldFrom (self : DiffPresentation τ) (from_ : Nat) (reviewed : List ReviewedHunk) :
    DiffPresentation τ :=
  (reviewed.zipIdx from_).reverse.foldl
    (fun self (hunk, index) => self.foldReviewed index hunk.span.new) self

theorem foldFrom_cons (self : DiffPresentation τ) (from_ : Nat) (hunk : ReviewedHunk)
    (reviewed : List ReviewedHunk) : foldFrom self from_ (hunk :: reviewed) =
      (foldFrom self (from_ + 1) reviewed).foldReviewed from_ hunk.span.new := by
  rw [foldFrom, List.zipIdx_cons, List.reverse_cons, List.foldl_append]
  rfl

/-- Only the rows change. -/
theorem foldFrom_rows (self : DiffPresentation τ) (from_ : Nat) (reviewed : List ReviewedHunk) :
    ∃ rows, foldFrom self from_ reviewed = { self with rows } := by
  induction reviewed generalizing from_ with
  | nil => exact ⟨self.rows, rfl⟩
  | cons hunk reviewed ih =>
    obtain ⟨rows, same⟩ := ih (from_ + 1)
    rw [foldFrom_cons, same]
    exact ⟨_, rfl⟩

theorem foldFrom_source (self : DiffPresentation τ) (from_ : Nat) (reviewed : List ReviewedHunk) :
    (foldFrom self from_ reviewed).source = self.source ∧
      (foldFrom self from_ reviewed).hunks = self.hunks := by
  obtain ⟨rows, same⟩ := foldFrom_rows self from_ reviewed
  rw [same]
  exact ⟨rfl, rfl⟩

/-- All hunks folded. -/
theorem based_foldFrom {self : DiffPresentation τ} (rest : List ReviewedHunk) (from_ : Nat)
    (foldable : ∀ index hunk, rest[index]? = some hunk →
      Foldable self.source self.hunks.reviewed file.length (from_ + index) hunk)
    (based : Based self.hunks.reviewed file (from_ + rest.length) self)
    (tiles : Tiles (rowSpan self.source self.hunks.reviewed) file.length 0 self.rows) :
    Based self.hunks.reviewed file from_ (foldFrom self from_ rest) ∧
      Tiles (rowSpan self.source self.hunks.reviewed) file.length 0 (foldFrom self from_ rest).rows := by
  induction rest generalizing from_ with
  | nil => exact ⟨based, tiles⟩
  | cons hunk rest ih =>
    have kept := foldFrom_source self (from_ + 1) rest
    have next := ih (from_ + 1) (fun index other found => by
      have own := foldable (index + 1) other (by simpa using found)
      rwa [show from_ + (index + 1) = from_ + 1 + index by omega] at own) (by
        rwa [List.length_cons, ← Nat.add_assoc, Nat.add_right_comm] at based)
    rw [foldFrom_cons]
    have first := foldable 0 hunk rfl
    rw [← kept.1] at first next ⊢
    exact based_foldReviewed (congrArg FileHunks.reviewed kept.2) first next.1 next.2

/-- Without other rows only the folds are there. -/
theorem foldFrom_nil {self : DiffPresentation τ} (none_ : self.rows = []) (rest : List ReviewedHunk)
    (from_ : Nat) (foldable : ∀ index hunk, rest[index]? = some hunk →
      Foldable self.source self.hunks.reviewed file.length (from_ + index) hunk) :
    (foldFrom self from_ rest).rows = (List.range' from_ rest.length).map .reviewedHunk := by
  induction rest generalizing from_ with
  | nil => exact none_
  | cons hunk rest ih =>
    have kept := foldFrom_source self (from_ + 1) rest
    have next := ih (from_ + 1) fun index other found => by
      have own := foldable (index + 1) other (by simpa using found)
      rwa [show from_ + (index + 1) = from_ + 1 + index by omega] at own
    have first := foldable 0 hunk rfl
    rw [foldFrom_cons, DiffPresentation.foldReviewed, next]
    dsimp only
    have still : ∀ row ∈ (List.range' (from_ + 1) rest.length).map PresentedRow.reviewedHunk,
        (foldFrom self (from_ + 1) rest).outside
          ⟨hunk.span.new.start + 1, hunk.span.new.stop + 1⟩ row = [row] := by
      intro row mem
      obtain ⟨index, -, rfl⟩ := List.mem_map.mp mem
      rfl
    rw [List.flatMap_congr still, List.flatMap_singleton', List.length_cons, List.range'_succ,
      List.map_cons]
    cases rest with
    | nil => rfl
    | cons later rest =>
      have own : self.hunks.reviewed[from_ + 1]? = some later := (foldable 1 later rfl).own
      have behind := first.later (from_ + 1) later (Nat.lt_succ_self _) own
      have proper := first.proper
      rw [List.length_cons, List.range'_succ, List.map_cons, List.findIdx?_cons,
        DiffPresentation.firstNewLine, kept.2, own]
      rw [show (Option.map (fun hunk => hunk.span.new.start + 1) (some later)).any
        (fun line => decide (hunk.span.new.start + 1 ≤ line)) = true by simp; omega]
      rfl

end ProgressiveReviewer.Presentation
