import ProgressiveReviewer.Library.Arranging
import ProgressiveReviewer.Presentation.Sections

/-! Expanding and contracting rows: a row stands for the rows it is expanded to. -/

namespace ProgressiveReviewer.Presentation

open Library Library.Extent Hunks

variable {τ : Type}

namespace DiffPresentation

variable (self : DiffPresentation τ) (painter : Painter τ)

/-- The rows that a folded row stands for. -/
def opens : PresentedRow τ → Option (List (PresentedRow τ))
  | .gap start lines => some (expandedLines start lines)
  | .reviewedHunk hunk => self.hunks.reviewed[hunk]?.map fun reviewed =>
    self.reviewedLines painter hunk reviewed.rows
  | _ => none

/-- What an unfolded row shows is not folded. -/
theorem opens_closed {painter : Painter τ} (item : PresentedRow τ) (part : List (PresentedRow τ))
    (opened : self.opens painter item = some part) :
    ∀ piece ∈ part, self.opens painter piece = none := by
  intro piece mem
  cases item with
  | gap start lines =>
    cases opened
    obtain ⟨line, -, rfl⟩ := List.mem_map.mp mem
    rfl
  | reviewedHunk hunk =>
    obtain ⟨reviewed, -, rfl⟩ := Option.map_eq_some_iff.mp opened
    obtain ⟨row, -, rfl⟩ := List.mem_map.mp mem
    rfl
  | _ => cases opened

theorem expand_eq (index : Nat) : self.expand painter index =
    match self.rows[index]?.bind (self.opens painter) with
    | some part => { self with rows := self.rows.take index ++ part ++ self.rows.drop (index + 1) }
    | none => self := by
  rw [expand, expandGap, expandReviewed]
  cases self.rows[index]? with
  | none => rfl
  | some row =>
    cases row with
    | reviewedHunk hunk =>
      rw [Option.bind_some, opens]
      dsimp only
      cases self.hunks.reviewed[hunk]? <;> rfl
    | _ => rfl

theorem expandAllRows_eq (rows : List (PresentedRow τ)) : expandAllRows rows =
    rows.flatMap fun
      | .gap start lines => expandedLines start lines
      | row => [row] := by
  induction rows with
  | nil => rfl
  | cons row rows ih =>
    cases row with
    | gap start lines => exact congrArg (expandedLines start lines ++ ·) ih
    | _ => exact congrArg (_ :: ·) ih

end DiffPresentation

/-- Rows that folding made. -/
structure DiffPresentation.Contracted (folded : DiffPresentation τ) (painter : Painter τ) : Prop where
  closed : ∀ row ∈ folded.rows, isOpened row = false
  spaced : Spaced isGap folded.rows
  filled : ∀ row ∈ folded.rows, ∀ part, folded.opens painter row = some part → part ≠ []

open DiffPresentation

/-! Contracting. -/

section Contract

variable {self : DiffPresentation τ} {painter : Painter τ} {before : List (PresentedRow τ)}

theorem contractRow_closed {row : PresentedRow τ} (closed : isOpened row = false) :
    contractRow before row = before ++ [row] := by
  cases row <;> first | rfl | cases closed

/-- The rest of an unfolded section joins its beginning. -/
theorem contract_expanded (start : Nat) (ahead behind : List τ) :
    (expandedLines (start + ahead.length) behind).foldl contractRow
        (before ++ [.gap start ahead]) = before ++ [.gap start (ahead ++ behind)] := by
  induction behind generalizing ahead with
  | nil => rw [List.append_nil]; rfl
  | cons token behind ih =>
    have split : expandedLines (start + ahead.length) (token :: behind) =
        .expanded (start + ahead.length) token ::
          expandedLines (start + (ahead ++ [token]).length) behind := by
      rw [expandedLines, List.zipIdx_cons, List.map_cons, expandedLines, List.length_append,
        List.zipIdx_succ, List.map_map]
      refine congrArg _ (List.map_congr_left fun line _ => ?_)
      exact congrArg (PresentedRow.expanded · line.1) (by simp; omega)
    have joined : contractRow (before ++ [.gap start ahead]) (.expanded (start + ahead.length) token) =
        before ++ [.gap start (ahead ++ [token])] := by
      rw [contractRow, List.getLast?_concat]
      exact (if_pos rfl).trans (by rw [List.dropLast_concat])
    rw [split, List.foldl_cons, joined, ih (ahead ++ [token]), List.append_assoc]
    rfl

theorem contract_section {start : Nat} {lines : List τ} (some_ : lines ≠ [])
    (apart : ∀ last ∈ before.getLast?, isGap last = false) :
    (expandedLines start lines).foldl contractRow before = before ++ [.gap start lines] := by
  cases lines with
  | nil => exact absurd rfl some_
  | cons token lines =>
    have first : contractRow before (.expanded start token) = before ++ [.gap start [token]] := by
      rw [contractRow]
      cases last : before.getLast? with
      | none => rfl
      | some row => cases row <;> first | rfl | exact nomatch apart _ last
    have split : expandedLines start (token :: lines) =
        .expanded start token :: expandedLines (start + [token].length) lines := by
      rw [expandedLines, List.zipIdx_cons, List.map_cons, expandedLines, List.zipIdx_succ,
        List.map_map]
      refine congrArg _ (List.map_congr_left fun line _ => ?_)
      exact congrArg (PresentedRow.expanded · line.1) (by simp; omega)
    rw [split, List.foldl_cons, first]
    exact contract_expanded start [token] lines

theorem contract_reviewed {hunk : Nat} {rows : List DiffRow} (some_ : rows ≠ []) :
    (self.reviewedLines painter hunk rows).foldl contractRow before =
      before ++ [.reviewedHunk hunk] := by
  have rest : ∀ (rows : List DiffRow) (index : Nat) (before : List (PresentedRow τ)), 0 < index →
      ((rows.zipIdx index).map fun entry => PresentedRow.reviewedLine hunk entry.2
        (newLineOf entry.1) (((newLineOf entry.1).bind self.fileLineTokens).getD
          (painter.plain entry.1))).foldl contractRow before =
        before := by
    intro rows
    induction rows with
    | nil => exact fun _ _ _ => rfl
    | cons row rows ih =>
      intro index before pos
      rw [List.zipIdx_cons, List.map_cons, List.foldl_cons, contractRow, if_neg (Nat.pos_iff_ne_zero.mp pos)]
      exact ih (index + 1) before (Nat.succ_pos _)
  cases rows with
  | nil => exact absurd rfl some_
  | cons row rows =>
    rw [reviewedLines, List.zipIdx_cons, List.map_cons, List.foldl_cons, contractRow, if_pos rfl]
    exact rest rows 1 _ Nat.one_pos

/-- A section behind the row that was just put there does not join it. -/
theorem apart_concat {row : PresentedRow τ} {base : List (PresentedRow τ)}
    (spaced : Spaced isGap (row :: base)) :
    ∀ last ∈ (before ++ [row]).getLast?, isGap last = true →
      ∀ first ∈ base.head?, isGap first = false := by
  intro last mem
  rw [List.getLast?_concat] at mem
  cases mem
  exact spaced.1

/-- Contracting brings back every row that was unfolded. -/
theorem contract_unfolded {base rows : List (PresentedRow τ)}
    (unfolded : Unfolded (self.opens painter) base rows)
    (closed : ∀ row ∈ base, isOpened row = false) (spaced : Spaced isGap base)
    (filled : ∀ row ∈ base, ∀ part, self.opens painter row = some part → part ≠ [])
    (apart : ∀ last ∈ before.getLast?, isGap last = true → ∀ first ∈ base.head?, isGap first = false) :
    rows.foldl contractRow before = before ++ base := by
  induction unfolded generalizing before with
  | nil => exact (List.append_nil _).symm
  | @kept row base rows rest ih =>
    obtain ⟨own, closed⟩ := List.forall_mem_cons.mp closed
    rw [List.foldl_cons, contractRow_closed own,
      ih closed spaced.2 (fun other mem => filled other (.tail _ mem)) (apart_concat spaced),
      List.append_assoc]
    rfl
  | @opened row part base rows opened rest ih =>
    obtain ⟨own, filled⟩ := List.forall_mem_cons.mp filled
    have whole : part.foldl contractRow before = before ++ [row] := by
      have some_ := own part opened
      cases row with
      | gap start lines =>
        cases opened
        refine contract_section (fun none_ => some_ (by rw [none_]; rfl)) fun last mem => ?_
        exact Bool.eq_false_iff.mpr fun joined => nomatch apart last mem joined _ rfl
      | reviewedHunk hunk =>
        obtain ⟨reviewed, -, rfl⟩ := Option.map_eq_some_iff.mp opened
        exact contract_reviewed fun none_ => some_ (by rw [none_]; rfl)
      | _ => cases opened
    rw [List.foldl_append, whole,
      ih (List.forall_mem_cons.mp closed).2 spaced.2 filled (apart_concat spaced), List.append_assoc]
    rfl

end Contract

/-! Runs of expanding and contracting. -/

namespace DiffPresentation

variable {self : DiffPresentation τ} {painter : Painter τ} {rows : List (PresentedRow τ)}

theorem opens_opened {row piece : PresentedRow τ} {part : List (PresentedRow τ)}
    (opened : self.opens painter row = some part) (mem : piece ∈ part) : isOpened piece = true := by
  cases row with
  | gap start lines =>
    cases opened
    obtain ⟨line, -, rfl⟩ := List.mem_map.mp mem
    rfl
  | reviewedHunk hunk =>
    obtain ⟨reviewed, -, rfl⟩ := Option.map_eq_some_iff.mp opened
    obtain ⟨line, -, rfl⟩ := List.mem_map.mp mem
    rfl
  | _ => cases opened

/-- Rows of which none was unfolded are those that folding made. -/
theorem unfolded_none {base : List (PresentedRow τ)}
    (unfolded : Unfolded (self.opens painter) base rows)
    (filled : ∀ row ∈ base, ∀ part, self.opens painter row = some part → part ≠ [])
    (none_ : rows.any isOpened = false) : rows = base := by
  induction unfolded with
  | nil => rfl
  | kept row rest ih =>
    rw [List.any_cons, Bool.or_eq_false_iff] at none_
    rw [ih (fun other mem => filled other (.tail _ mem)) none_.2]
  | opened opened rest ih =>
    obtain ⟨piece, mem⟩ := List.exists_mem_of_ne_nil _ (filled _ (.head _) _ opened)
    rw [List.any_append, Bool.or_eq_false_iff] at none_
    exact nomatch none_.1.symm.trans (List.any_eq_true.mpr ⟨piece, mem, opens_opened opened mem⟩)

/-- Contracting all rows restores the first presentation. -/
theorem contractAll_unfolded (contracted : self.Contracted painter)
    (unfolded : Unfolded (self.opens painter) self.rows rows) :
    DiffPresentation.contractAll { self with rows } = self := by
  rw [contractAll]
  dsimp only
  split_ifs with some_
  · rw [contract_unfolded unfolded contracted.closed contracted.spaced contracted.filled
      fun _ none_ => by cases none_]
    rfl
  · rw [unfolded_none unfolded contracted.filled (Bool.eq_false_iff.mpr some_)]

theorem apply_unfolded (contracted : self.Contracted painter)
    (unfolded : Unfolded (self.opens painter) self.rows rows) (folding : Folding) :
    ∃ next, apply { self with rows } painter folding = { self with rows := next } ∧
      Unfolded (self.opens painter) self.rows next := by
  cases folding with
  | expand index =>
    rw [apply, expand_eq]
    dsimp only
    cases found : rows[index]? with
    | none => exact ⟨rows, rfl, unfolded⟩
    | some row =>
      rw [Option.bind_some]
      cases opened : self.opens painter row with
      | none =>
        have same : DiffPresentation.opens { self with rows } painter row = none := opened
        rw [same]
        exact ⟨rows, rfl, unfolded⟩
      | some part =>
        have same : DiffPresentation.opens { self with rows } painter row = some part := opened
        rw [same]
        exact ⟨_, rfl, unfolded.unfold self.opens_closed found opened⟩
  | expandAll =>
    refine ⟨expandAllRows rows, rfl, expandAllRows_eq rows ▸ unfolded.flatMap self.opens_closed _ ?_⟩
    intro row
    cases row with
    | gap start lines => exact Or.inr rfl
    | _ => exact Or.inl rfl
  | contractAll => exact ⟨self.rows, contractAll_unfolded contracted unfolded, Unfolded.refl _⟩

/-- Only the rows change. -/
theorem run_unfolded (contracted : self.Contracted painter) (foldings : List Folding) :
    ∃ rows, foldings.foldl (fun self => self.apply painter) self = { self with rows } ∧
      Unfolded (self.opens painter) self.rows rows := by
  induction foldings using List.reverseRecOn with
  | nil => exact ⟨self.rows, rfl, Unfolded.refl _⟩
  | append_singleton foldings folding ih =>
    obtain ⟨rows, ran, unfolded⟩ := ih
    rw [List.foldl_append, ran]
    exact apply_unfolded contracted unfolded folding

end DiffPresentation

/-! What unfolding keeps. -/

section Kept

variable {self : DiffPresentation τ} {painter : Painter τ} {source : List DiffRow}
  {reviewed : List ReviewedHunk} {xs ys : Lines}

/-- The lines of the new version that rows show, one after another. -/
theorem shownLines_new {i' j' i j : Nat} {rows : List DiffRow}
    (shown : ShowsLines xs ys i' j' i j rows) :
    rows.filterMap newLineOf = List.range' (j + 1) (j' - j) := by
  induction rows generalizing i j with
  | nil => rw [shown.2, Nat.sub_self]; rfl
  | cons row rows ih =>
    have le := shownLines_le shown
    cases row with
    | context oldLine newLine text =>
      obtain ⟨⟨-, rfl, -⟩, shown⟩ := shown
      have less := shownLines_le shown
      change (j + 1) :: rows.filterMap newLineOf = _
      rw [ih shown, show j' - j = j' - (j + 1) + 1 by omega, List.range'_succ]
    | delete oldLine text => exact ih shown.2
    | add newLine text =>
      obtain ⟨⟨rfl, -⟩, shown⟩ := shown
      have less := shownLines_le shown
      change (j + 1) :: rows.filterMap newLineOf = _
      rw [ih shown, show j' - j = j' - (j + 1) + 1 by omega, List.range'_succ]
    | metadata text => exact ih shown
    | _ => exact shown.elim

theorem heldBy_line (line : Nat) : positions ⟨line + 1 - 1, line + 1⟩ = [line] := by
  rw [positions, Nat.add_sub_cancel, Nat.add_sub_cancel_left]
  rfl

theorem heldBy_expanded (start : Nat) (pos : 0 < start) (lines : List τ) :
    (expandedLines start lines).flatMap (heldBy (rowSpan source reviewed)) =
      heldBy (rowSpan source reviewed) (.gap start lines) := by
  obtain ⟨line, rfl⟩ := Nat.exists_eq_succ_of_ne_zero (Nat.pos_iff_ne_zero.mp pos)
  rw [expandedLines, List.flatMap_map]
  have each : ∀ item : τ × Nat, heldBy (rowSpan source reviewed)
      (.expanded (line + 1 + item.2) item.1) = [line + item.2] := by
    intro item
    rw [show line + 1 + item.2 = line + item.2 + 1 by omega]
    exact heldBy_line _
  have whole : heldBy (rowSpan source reviewed) (.gap (line + 1) lines) =
      List.range' line lines.length := by
    rw [heldBy, rowSpan, Option.map_some, Option.getD_some, positions, Nat.add_sub_cancel,
      Nat.add_sub_cancel_left]
  rw [whole, List.flatMap_congr fun item _ => each item, ← List.map_eq_flatMap]
  have numbers : (lines.zipIdx.map fun item => line + item.2) =
      (lines.zipIdx.map (·.2)).map (line + ·) := by rw [List.map_map]; rfl
  rw [numbers, List.zipIdx_map_snd, List.map_add_range', Nat.add_zero]

theorem heldBy_reviewedLines {hunk i' j' i j : Nat} {rows : List DiffRow}
    (shown : ShowsLines xs ys i' j' i j rows) :
    (self.reviewedLines painter hunk rows).flatMap (heldBy (rowSpan source reviewed)) =
      positions ⟨j, j'⟩ := by
  have each : ∀ item : DiffRow × Nat, heldBy (rowSpan source reviewed)
      (.reviewedLine hunk item.2 (newLineOf item.1)
        (((newLineOf item.1).bind self.fileLineTokens).getD (painter.plain item.1))) =
      ((newLineOf item.1).map fun line => positions ⟨line - 1, line⟩).getD [] := by
    intro item
    rw [heldBy, rowSpan, Option.map_map]
    rfl
  have lines : ∀ rows : List DiffRow, ∀ index, ((rows.zipIdx index).flatMap fun item =>
      ((newLineOf item.1).map fun line => positions ⟨line - 1, line⟩).getD []) =
      (rows.filterMap newLineOf).flatMap fun line => positions ⟨line - 1, line⟩ := by
    intro rows
    induction rows with
    | nil => exact fun _ => rfl
    | cons row rows ih =>
      intro index
      rw [List.zipIdx_cons, List.flatMap_cons, ih, List.filterMap_cons]
      cases newLineOf row <;> rfl
  rw [reviewedLines, List.flatMap_map, List.flatMap_congr fun item _ => each item, lines,
    shownLines_new shown, positions]
  have shifted : List.range' (j + 1) (j' - j) = (List.range' j (j' - j)).map (· + 1) := by
    rw [show (fun n => n + 1) = (1 + ·) from funext fun n => Nat.add_comm n 1, List.map_add_range',
      Nat.add_comm]
  rw [shifted, List.flatMap_map, List.flatMap_congr fun line _ => heldBy_line line,
    ← List.map_eq_flatMap, List.map_id']

end Kept

end ProgressiveReviewer.Presentation
