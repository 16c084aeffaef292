import Mathlib.Algebra.Ring.Nat
import ProgressiveReviewer.Explore.Source

/-! The display rows of a comment in its editor (`comment-editor/src/view.rs`). Of the style
of a span only its background is kept, as whether it is selected. -/

namespace ProgressiveReviewer.Editor

open Explore (isWhitespace)

/-- The tables of Unicode: the grapheme clusters of a text and the columns it takes. -/
structure Tables where
  graphemes : List Char → List (List Char)
  columns : List Char → Nat
  flatten_graphemes : ∀ text, (graphemes text).flatten = text
  graphemes_ne_nil : ∀ text, ∀ symbol ∈ graphemes text, symbol ≠ []
  columns_spaces : ∀ count, columns (List.replicate count ' ') = count
  columns_replacement : columns ['\uFFFD'] = 1

inductive EditorMode where
  | normal
  | insert
  | visual
  | search
  deriving DecidableEq, Repr

structure Index2 where
  row : Nat
  col : Nat
  deriving DecidableEq, Repr

/-- What the editor's view reads of Edtui's state. -/
structure EditorState where
  lines : List (List Char)
  cursor : Index2
  mode : EditorMode
  /-- The positions that the selection contains. -/
  selection : Option (Index2 → Bool)
  searchPattern : List Char

structure Span where
  content : List Char
  selected : Bool
  deriving DecidableEq, Repr

structure EditorRow where
  line : List Span
  sourceRow : Nat
  cursor : Option Nat
  /-- Display columns with the source columns they name. -/
  positions : List (Nat × Nat)
  deriving DecidableEq, Repr

structure EditorGlyph where
  span : Span
  width : Nat
  whitespace : Bool
  cursor : Bool
  sourceColumn : Nat
  deriving DecidableEq, Repr

namespace EditorGlyph

def new (tables : Tables) (symbol : List Char) (width : Nat) (selected cursor : Bool)
    (sourceColumn : Nat) : EditorGlyph :=
  let text :=
    if symbol = ['\t'] then List.replicate (min 2 width) ' '
    else if width < tables.columns symbol then ['\uFFFD']
    else symbol
  { span := ⟨text, selected⟩
    width := tables.columns text
    whitespace := symbol.all isWhitespace
    cursor := cursor
    sourceColumn := sourceColumn }

/-- The first loop of `wrap_end`: how many glyphs the row has room for, and how many up to the
last blank among them. -/
def room (width used count : Nat) (boundary : Option Nat) : List EditorGlyph → Nat × Option Nat
  | [] => (count, boundary)
  | glyph :: rest =>
    if width < used + glyph.width ∧ 0 < count then (count, boundary)
    else room width (used + glyph.width) (count + 1)
      (if glyph.whitespace then some (count + 1) else boundary) rest

/-- The last loop of `wrap_end`: the blanks that hang from the row, unless the cursor is on
one of them. -/
def hanging : List EditorGlyph → Option Nat
  | [] => some 0
  | glyph :: rest =>
    if glyph.whitespace then
      if glyph.cursor then none else (hanging rest).map (· + 1)
    else some 0

/-- Where `wrap_end` breaks the row: after the glyphs it has room for, or after the last blank
among them when a word goes on. -/
def breakAt (width : Nat) (glyphs : List EditorGlyph) : Nat :=
  let filled := room width 0 0 none glyphs
  match glyphs[filled.1]? with
  | some glyph => if glyph.whitespace then filled.1 else filled.2.getD filled.1
  | none => filled.1

/-- How many of the glyphs left go on the next row. -/
def wrapEnd (width : Nat) (glyphs : List EditorGlyph) : Nat :=
  let fits := breakAt width glyphs
  fits + (hanging (glyphs.drop fits)).getD 0

/-- The columns that glyphs take next to each other. -/
def columnsOf (glyphs : List EditorGlyph) : Nat := (glyphs.map (·.width)).sum

@[simp] theorem columnsOf_append (glyphs more : List EditorGlyph) :
    columnsOf (glyphs ++ more) = columnsOf glyphs + columnsOf more := by
  rw [columnsOf, List.map_append, List.sum_append]
  rfl

@[simp] theorem columnsOf_cons (glyph : EditorGlyph) (rest : List EditorGlyph) :
    columnsOf (glyph :: rest) = glyph.width + columnsOf rest := rfl

theorem columnsOf_le_of_leads {first glyphs : List EditorGlyph} (leads : first <+: glyphs) :
    columnsOf first ≤ columnsOf glyphs := by
  obtain ⟨rest, rfl⟩ := leads
  rw [columnsOf_append]
  exact Nat.le_add_right _ _

/-- The glyphs a row has room for are a first part of those left. -/
theorem room_spec {width used count : Nat} {boundary : Option Nat} {glyphs : List EditorGlyph}
    (narrow : ∀ glyph ∈ glyphs, glyph.width ≤ width) (fit : used ≤ width)
    (fresh : count = 0 → used = 0) :
    ∃ taken left, glyphs = taken ++ left ∧
      (room width used count boundary glyphs).1 = count + taken.length ∧
      used + columnsOf taken ≤ width ∧ (count = 0 → glyphs ≠ [] → taken ≠ []) := by
  induction glyphs generalizing used count boundary with
  | nil => exact ⟨[], [], rfl, rfl, fit, fun _ some => absurd rfl some⟩
  | cons glyph rest ih =>
    have own := narrow glyph (List.mem_cons_self ..)
    by_cases full : width < used + glyph.width ∧ 0 < count
    · rw [room, if_pos full]
      exact ⟨[], glyph :: rest, rfl, rfl, fit, fun none => absurd none full.2.ne'⟩
    · rw [room, if_neg full]
      have fits : used + glyph.width ≤ width := by
        by_contra exceeds
        have := fresh (by omega)
        omega
      obtain ⟨taken, left, rfl, counted, held, -⟩ := ih
        (fun other mem => narrow other (List.mem_cons_of_mem _ mem)) fits
        (fun never : count + 1 = 0 => absurd never (Nat.succ_ne_zero _))
      refine ⟨glyph :: taken, left, rfl, ?_, ?_, fun _ _ => List.cons_ne_nil _ _⟩
      · rw [counted, List.length_cons]
        omega
      · rw [columnsOf_cons]
        omega

theorem le_room (width used count : Nat) (boundary : Option Nat) (glyphs : List EditorGlyph) :
    count ≤ (room width used count boundary glyphs).1 := by
  induction glyphs generalizing used count boundary with
  | nil => exact le_rfl
  | cons glyph rest ih =>
    by_cases full : width < used + glyph.width ∧ 0 < count
    · rw [room, if_pos full]
    · rw [room, if_neg full]
      exact (Nat.le_succ count).trans (ih ..)

theorem boundary_room {width used count last : Nat} {boundary : Option Nat} {glyphs : List EditorGlyph}
    (found : (room width used count boundary glyphs).2 = some last) :
    boundary = some last ∨ count < last ∧ last ≤ (room width used count boundary glyphs).1 := by
  induction glyphs generalizing used count boundary with
  | nil => exact .inl found
  | cons glyph rest ih =>
    by_cases full : width < used + glyph.width ∧ 0 < count
    · rw [room, if_pos full] at found
      exact .inl found
    · rw [room, if_neg full] at found ⊢
      rcases ih found with here | ⟨after, within⟩
      · split_ifs at here with blank
        · cases here
          exact .inr ⟨Nat.lt_succ_self _, le_room ..⟩
        · exact .inl here
      · exact .inr ⟨by omega, within⟩

theorem hanging_spec {glyphs : List EditorGlyph} {count : Nat} (hangs : hanging glyphs = some count) :
    ∃ run left, glyphs = run ++ left ∧ run.length = count ∧
      ∀ glyph ∈ run, glyph.whitespace = true ∧ glyph.cursor = false := by
  induction glyphs generalizing count with
  | nil =>
    cases hangs
    exact ⟨[], [], rfl, rfl, fun _ mem => absurd mem List.not_mem_nil⟩
  | cons glyph rest ih =>
    rw [hanging] at hangs
    split_ifs at hangs with blank caret
    · obtain ⟨fewer, rested, rfl⟩ := Option.map_eq_some_iff.mp hangs
      obtain ⟨run, left, rfl, rfl, all⟩ := ih rested
      refine ⟨glyph :: run, left, rfl, rfl, ?_⟩
      rintro other (_ | ⟨_, mem⟩)
      · exact ⟨blank, Bool.eq_false_iff.mpr caret⟩
      · exact all other mem
    · cases hangs
      exact ⟨[], glyph :: rest, rfl, rfl, fun _ mem => absurd mem List.not_mem_nil⟩

theorem breakAt_le (width : Nat) (glyphs : List EditorGlyph) :
    breakAt width glyphs ≤ (room width 0 0 none glyphs).1 := by
  unfold breakAt
  dsimp only
  split
  · split_ifs
    · exact le_rfl
    · cases found : (room width 0 0 none glyphs).2 with
      | none => exact le_rfl
      | some last =>
        rcases boundary_room found with never | ⟨-, within⟩
        · cases never
        · exact within
  · exact le_rfl

theorem breakAt_pos {width : Nat} {glyphs : List EditorGlyph} (nonempty : glyphs ≠ []) :
    0 < breakAt width glyphs := by
  have filled : 0 < (room width 0 0 none glyphs).1 := by
    cases glyphs with
    | nil => exact absurd rfl nonempty
    | cons glyph rest =>
      rw [room, if_neg fun full => absurd full.2 (lt_irrefl 0)]
      exact le_room ..
  unfold breakAt
  dsimp only
  split
  · split_ifs
    · exact filled
    · cases found : (room width 0 0 none glyphs).2 with
      | none => exact filled
      | some last =>
        rcases boundary_room found with never | ⟨positive, -⟩
        · cases never
        · exact positive
  · exact filled

theorem wrapEnd_pos {width : Nat} {glyphs : List EditorGlyph} (nonempty : glyphs ≠ []) :
    0 < wrapEnd width glyphs :=
  Nat.add_pos_left (breakAt_pos nonempty) _

/-- The glyphs of a row: those that fit it, then blanks without the cursor. -/
theorem wrapEnd_spec {width : Nat} {glyphs : List EditorGlyph} (nonempty : glyphs ≠ [])
    (narrow : ∀ glyph ∈ glyphs, glyph.width ≤ width) :
    ∃ kept run left, glyphs = kept ++ (run ++ left) ∧ kept ≠ [] ∧
      wrapEnd width glyphs = kept.length + run.length ∧ columnsOf kept ≤ width ∧
      ∀ glyph ∈ run, glyph.whitespace = true ∧ glyph.cursor = false := by
  obtain ⟨taken, left, split, counted, held, -⟩ :=
    @room_spec width 0 0 none glyphs narrow (Nat.zero_le _) fun _ => rfl
  rw [Nat.zero_add] at counted held
  have within := (breakAt_le width glyphs).trans counted.le
  have kept : glyphs = taken.take (breakAt width glyphs) ++ glyphs.drop (breakAt width glyphs) := by
    conv_lhs => rw [split, ← List.take_append_drop (breakAt width glyphs) taken, List.append_assoc]
    rw [split, List.drop_append_of_le_length (by rwa [← split])]
  have length : (taken.take (breakAt width glyphs)).length = breakAt width glyphs := by
    rw [List.length_take, Nat.min_eq_left within]
  have fits := (columnsOf_le_of_leads (taken.take_prefix (breakAt width glyphs))).trans held
  have some_kept : taken.take (breakAt width glyphs) ≠ [] := by
    rw [← List.length_pos_iff, length]
    exact breakAt_pos nonempty
  cases hangs : hanging (glyphs.drop (breakAt width glyphs)) with
  | none =>
    refine ⟨_, [], _, kept, some_kept, ?_, fits, fun _ mem => absurd mem List.not_mem_nil⟩
    rw [wrapEnd, hangs, length]
    rfl
  | some count =>
    obtain ⟨run, left, rest, rfl, blank⟩ := hanging_spec hangs
    refine ⟨_, run, left, kept.trans (by rw [rest]), some_kept, ?_, fits, blank⟩
    rw [wrapEnd, hangs, length]
    rfl

end EditorGlyph

open EditorGlyph

/-- What the row under construction holds, and the next column. -/
structure Filling where
  column : Nat
  cursor : Option Nat
  spans : List Span
  positions : List (Nat × Nat)

namespace Filling

def empty : Filling := ⟨0, none, [], []⟩

def push (width : Nat) (filling : Filling) (glyph : EditorGlyph) : Filling where
  column := filling.column + glyph.width
  cursor := if glyph.cursor then some (min filling.column (width - 1)) else filling.cursor
  spans := filling.spans ++ [glyph.span]
  positions :=
    if filling.column < width then filling.positions ++ [(filling.column, glyph.sourceColumn)]
    else filling.positions

end Filling

namespace EditorRow

def ofGlyphs (width sourceRow : Nat) (glyphs : List EditorGlyph) : EditorRow :=
  let filled := glyphs.foldl (Filling.push width) .empty
  ⟨filled.spans, sourceRow, filled.cursor, filled.positions⟩

/-- The loop of `wrap` over the glyphs left. -/
def rows (width sourceRow : Nat) (glyphs : List EditorGlyph) : List EditorRow :=
  match glyphs with
  | [] => []
  | glyph :: rest =>
    let count := wrapEnd width (glyph :: rest)
    ofGlyphs width sourceRow ((glyph :: rest).take count) ::
      rows width sourceRow ((glyph :: rest).drop count)
termination_by glyphs.length
decreasing_by
  have : 0 < wrapEnd width (glyph :: rest) := wrapEnd_pos (List.cons_ne_nil glyph rest)
  simp only [List.length_drop, List.length_cons]
  omega

variable (tables : Tables)

def lineWidth (line : List Span) : Nat := (line.map fun span => tables.columns span.content).sum

def placeEndCursor (rows : List EditorRow) (sourceRow sourceColumn width : Nat) (hasCursor : Bool) :
    List EditorRow :=
  match rows.getLast? with
  | none => rows
  | some last =>
    let column := lineWidth tables last.line
    if column < width then
      rows.dropLast ++ [{ last with
        positions := last.positions ++ [(column, sourceColumn)]
        cursor := if hasCursor then some column else last.cursor }]
    else if hasCursor then rows ++ [⟨[], sourceRow, some 0, [(0, sourceColumn)]⟩]
    else rows

end EditorRow

namespace EditorState

variable (tables : Tables) (state : EditorState)

/-- The characters that a search found at the cursor. -/
def searchSelection (row : Nat) (chars : List Char) : Option (Nat × Nat) :=
  let start := state.cursor.col
  if state.mode = .search ∧ row = state.cursor.row ∧ state.searchPattern ≠ [] ∧
      start ≤ chars.length ∧ state.searchPattern <+: chars.drop start then
    some (start, start + state.searchPattern.length)
  else none

/-- The column of the cursor in a line: past its end only where text is inserted. -/
def cursorIn (sourceRow : Nat) (chars : List Char) : Option Nat :=
  let last := if state.mode = .insert then chars.length else chars.length - 1
  if sourceRow = state.cursor.row then some (min state.cursor.col last) else none

/-- The glyphs of the graphemes of a line from a column on. -/
def glyphsFrom (sourceRow width : Nat) (cursor : Option Nat) (search : Option (Nat × Nat)) :
    Nat → List (List Char) → List EditorGlyph
  | _, [] => []
  | column, symbol :: rest =>
    let «end» := column + symbol.length
    let selected := (List.range' column symbol.length).any fun col =>
      state.selection.any fun contains => contains ⟨sourceRow, col⟩
    .new tables symbol width
      (selected || search.any fun range => range.1 ≤ column && column < range.2)
      (cursor.any fun cursor => column ≤ cursor && cursor < «end») column ::
      glyphsFrom sourceRow width cursor search «end» rest

def glyphs (sourceRow : Nat) (chars : List Char) (width : Nat) : List EditorGlyph :=
  state.glyphsFrom tables sourceRow width (state.cursorIn sourceRow chars)
    (state.searchSelection sourceRow chars) 0 (tables.graphemes chars)

def wrap (sourceRow : Nat) (chars : List Char) (width : Nat) : List EditorRow :=
  let width := max width 1
  let cursor := state.cursorIn sourceRow chars
  let glyphs := state.glyphs tables sourceRow chars width
  if glyphs.isEmpty then [⟨[], sourceRow, cursor, [(0, 0)]⟩]
  else
    let rows := EditorRow.rows width sourceRow glyphs
    if state.mode = .insert then
      EditorRow.placeEndCursor tables rows sourceRow chars.length width (cursor = some chars.length)
    else rows

/-- The display rows of the text. -/
def document (width : Nat) : List EditorRow :=
  let rows := state.lines.zipIdx.flatMap fun (chars, row) => state.wrap tables row chars width
  if rows.isEmpty then state.wrap tables 0 [] width else rows

end EditorState

end ProgressiveReviewer.Editor
