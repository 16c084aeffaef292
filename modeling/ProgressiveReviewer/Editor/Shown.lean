import ProgressiveReviewer.Editor.Wrap
import Mathlib.Data.List.DropRight

/-! Every grapheme of a comment is drawn in one display row, and the cursor on it where it is
drawn, as far as the row has a column there. -/

namespace ProgressiveReviewer.Editor

open EditorGlyph

/-! The row under construction. -/

namespace Filling

variable (width : Nat) (glyphs : List EditorGlyph)

theorem column_foldl : (glyphs.foldl (push width) empty).column = columnsOf glyphs := by
  induction glyphs using List.reverseRecOn with
  | nil => rfl
  | append_singleton glyphs glyph ih =>
    rw [List.foldl_concat, columnsOf_append, push, ih]
    rfl

theorem spans_foldl : (glyphs.foldl (push width) empty).spans = glyphs.map (·.span) := by
  induction glyphs using List.reverseRecOn with
  | nil => rfl
  | append_singleton glyphs glyph ih => rw [List.foldl_concat, push, ih, List.map_append, List.map_singleton]

theorem isSome_cursor_foldl :
    (glyphs.foldl (push width) empty).cursor.isSome = glyphs.any (·.cursor) := by
  induction glyphs using List.reverseRecOn with
  | nil => rfl
  | append_singleton glyphs glyph ih =>
    rw [List.foldl_concat, push, List.any_append, ← ih]
    cases caret : glyph.cursor <;> simp [caret]

/-- The cursor is on a glyph, at its column or the last one of the row. -/
theorem cursor_foldl {column : Nat} (held : (glyphs.foldl (push width) empty).cursor = some column) :
    ∃ before glyph after, glyphs = before ++ glyph :: after ∧ glyph.cursor = true ∧
      column = min (columnsOf before) (width - 1) := by
  induction glyphs using List.reverseRecOn with
  | nil => cases held
  | append_singleton glyphs glyph ih =>
    rw [List.foldl_concat, push] at held
    dsimp only at held
    split_ifs at held with here
    · rw [column_foldl] at held
      exact ⟨glyphs, glyph, [], rfl, here, (Option.some.inj held).symm⟩
    · obtain ⟨before, own, after, rfl, own_cursor, same⟩ := ih held
      exact ⟨before, own, after ++ [glyph], by rw [List.append_assoc, List.cons_append], own_cursor, same⟩

/-- The positions are those of glyphs on the row. -/
theorem positions_foldl {position : Nat × Nat}
    (held : position ∈ (glyphs.foldl (push width) empty).positions) :
    position.1 < width ∧ ∃ before glyph after, glyphs = before ++ glyph :: after ∧
      position = (columnsOf before, glyph.sourceColumn) := by
  induction glyphs using List.reverseRecOn with
  | nil => exact absurd held List.not_mem_nil
  | append_singleton glyphs glyph ih =>
    have later (old : position ∈ (glyphs.foldl (push width) empty).positions) :
        position.1 < width ∧ ∃ before own after, glyphs ++ [glyph] = before ++ own :: after ∧
          position = (columnsOf before, own.sourceColumn) := by
      obtain ⟨inside, before, own, after, rfl, same⟩ := ih old
      exact ⟨inside, before, own, after ++ [glyph], by rw [List.append_assoc, List.cons_append], same⟩
    rw [List.foldl_concat, push] at held
    dsimp only at held
    split_ifs at held with inside
    · rcases List.mem_append.mp held with old | new
      · exact later old
      · rw [List.mem_singleton.mp new]
        rw [column_foldl] at inside ⊢
        exact ⟨inside, glyphs, glyph, [], rfl, rfl⟩
    · exact later held

end Filling

/-- Glyphs that one row takes: what fits it, then blanks without the cursor. -/
def Fitting (width : Nat) (glyphs : List EditorGlyph) : Prop :=
  ∃ kept run, glyphs = kept ++ run ∧ columnsOf kept ≤ width ∧
    ∀ glyph ∈ run, glyph.whitespace = true ∧ glyph.cursor = false

namespace Fitting

variable {width : Nat} {glyphs : List EditorGlyph}

/-- Without its trailing blanks the row fits. -/
theorem trimmed (fitting : Fitting width glyphs) :
    columnsOf (glyphs.rdropWhile (·.whitespace)) ≤ width := by
  obtain ⟨kept, run, rfl, fits, blank⟩ := fitting
  refine le_trans (columnsOf_le_of_leads ?_) fits
  induction run using List.reverseRecOn with
  | nil =>
    rw [List.append_nil]
    exact List.rdropWhile_prefix _ _
  | append_singleton run glyph ih =>
    have last := (blank glyph (List.mem_append_right _ (List.mem_singleton_self _))).1
    rw [← List.append_assoc, List.rdropWhile_concat_pos _ _ _ last]
    exact ih fun other mem => blank other (List.mem_append_left _ mem)

/-- The glyph with the cursor is among those that fit. -/
theorem caret_fits (fitting : Fitting width glyphs) {before after : List EditorGlyph}
    {glyph : EditorGlyph} (split : glyphs = before ++ glyph :: after)
    (caret : glyph.cursor = true) : columnsOf before + glyph.width ≤ width := by
  obtain ⟨kept, run, rfl, fits, blank⟩ := fitting
  have leads : before ++ [glyph] <+: kept := by
    rcases List.append_eq_append_iff.mp split with ⟨more, rfl, rest⟩ | ⟨more, rfl, rest⟩
    · have mem : glyph ∈ run := by
        rw [rest]
        exact List.mem_append_right _ (List.mem_cons_self ..)
      exact absurd ((blank glyph mem).2.symm.trans caret) Bool.false_ne_true
    · cases more with
      | nil =>
        have mem : glyph ∈ run := by
          rw [← List.nil_append run, ← rest]
          exact List.mem_cons_self ..
        exact absurd ((blank glyph mem).2.symm.trans caret) Bool.false_ne_true
      | cons first more =>
        cases rest
        exact ⟨more, by rw [List.append_assoc, List.singleton_append]⟩
  have held := columnsOf_le_of_leads leads
  rw [columnsOf_append, columnsOf_cons] at held
  exact le_trans held fits

end Fitting

/-- The rows of a line part its glyphs. -/
theorem rows_parts (sourceRow : Nat) {width : Nat} {glyphs : List EditorGlyph}
    (narrow : ∀ glyph ∈ glyphs, glyph.width ≤ width) :
    ∃ parts : List (List EditorGlyph), parts.flatten = glyphs ∧
      EditorRow.rows width sourceRow glyphs = parts.map (EditorRow.ofGlyphs width sourceRow) ∧
      ∀ part ∈ parts, Fitting width part := by
  induction glyphs using EditorRow.rows.induct width with
  | case1 =>
    refine ⟨[], rfl, ?_, fun _ mem => absurd mem List.not_mem_nil⟩
    rw [EditorRow.rows, List.map_nil]
  | case2 glyph rest count ih =>
    obtain ⟨kept, run, left, split, -, ends, fits, blank⟩ :=
      wrapEnd_spec (List.cons_ne_nil glyph rest) narrow
    have taken : (glyph :: rest).take count = kept ++ run := by
      rw [split, ← List.append_assoc, List.take_left' (by rw [List.length_append]; exact ends.symm)]
    have dropped : (glyph :: rest).drop count = left := by
      rw [split, ← List.append_assoc, List.drop_left' (by rw [List.length_append]; exact ends.symm)]
    obtain ⟨parts, whole, shown, fitting⟩ := ih fun other mem => narrow other (List.mem_of_mem_drop mem)
    refine ⟨(kept ++ run) :: parts, ?_, ?_, ?_⟩
    · rw [List.flatten_cons, whole, dropped, List.append_assoc, ← split]
    · rw [EditorRow.rows, List.map_cons, ← taken, ← shown]
    · rintro part (_ | ⟨_, mem⟩)
      · exact ⟨kept, run, rfl, fits, blank⟩
      · exact fitting part mem

/-! The glyphs of a line. -/

theorem width_new (tables : Tables) (symbol : List Char) {width : Nat} (positive : 0 < width)
    (selected cursor : Bool) (sourceColumn : Nat) :
    (EditorGlyph.new tables symbol width selected cursor sourceColumn).width ≤ width := by
  simp only [EditorGlyph.new]
  split_ifs with tab wide
  · rw [tables.columns_spaces]
    exact min_le_right ..
  · rw [tables.columns_replacement]
    exact positive
  · exact not_lt.mp wide

namespace EditorState

variable (tables : Tables) (state : EditorState) (sourceRow : Nat) {width : Nat} (chars : List Char)
  {cursor : Option Nat} {search : Option (Nat × Nat)}

theorem mem_glyphsFrom {column : Nat} {symbols : List (List Char)} {glyph : EditorGlyph}
    (mem : glyph ∈ state.glyphsFrom tables sourceRow width cursor search column symbols) :
    ∃ symbol selected caret start, glyph = .new tables symbol width selected caret start := by
  induction symbols generalizing column with
  | nil => exact absurd mem List.not_mem_nil
  | cons symbol rest ih =>
    rcases List.mem_cons.mp mem with rfl | mem
    · exact ⟨_, _, _, _, rfl⟩
    · exact ih mem

/-- The cursor is on one grapheme when it is before the end of the line, on none otherwise. -/
theorem countP_glyphsFrom {column : Nat} {symbols : List (List Char)} :
    (state.glyphsFrom tables sourceRow width cursor search column symbols).countP (·.cursor) =
      if cursor.any fun cursor => column ≤ cursor && cursor < column + symbols.flatten.length then 1
      else 0 := by
  induction symbols generalizing column with
  | nil =>
    cases cursor with
    | none => rfl
    | some cursor =>
      rw [if_neg]
      · rfl
      · simp
  | cons symbol rest ih =>
    rw [glyphsFrom, List.countP_cons, ih]
    cases cursor with
    | none => rfl
    | some cursor =>
      simp only [EditorGlyph.new, Option.any_some, List.flatten_cons, List.length_append,
        Bool.and_eq_true, decide_eq_true_eq]
      split_ifs <;> omega

theorem glyphs_eq_nil_iff : state.glyphs tables sourceRow chars width = [] ↔ chars = [] := by
  rw [glyphs]
  constructor
  · intro none
    cases symbols : tables.graphemes chars with
    | nil => rw [← tables.flatten_graphemes chars, symbols, List.flatten_nil]
    | cons symbol rest =>
      rw [symbols] at none
      cases none
  · rintro rfl
    cases symbols : tables.graphemes [] with
    | nil => rfl
    | cons symbol rest =>
      have empty := tables.flatten_graphemes []
      rw [symbols, List.flatten_cons, List.append_eq_nil_iff] at empty
      exact absurd empty.1 (tables.graphemes_ne_nil [] symbol (by rw [symbols]; exact List.mem_cons_self ..))

theorem countP_glyphs : (state.glyphs tables sourceRow chars width).countP (·.cursor) =
    if (state.cursorIn sourceRow chars).any (· < chars.length) then 1 else 0 := by
  rw [glyphs, countP_glyphsFrom, tables.flatten_graphemes]
  simp

theorem glyphs_narrow (positive : 0 < width) :
    ∀ glyph ∈ state.glyphs tables sourceRow chars width, glyph.width ≤ width := by
  intro glyph mem
  obtain ⟨symbol, selected, caret, start, rfl⟩ := mem_glyphsFrom tables state sourceRow mem
  exact width_new tables symbol positive ..

/-- The columns of drawn glyphs are those of their spans. -/
theorem lineWidth_glyphs {glyphs : List EditorGlyph}
    (drawn : ∀ glyph ∈ glyphs, glyph ∈ state.glyphs tables sourceRow chars width) :
    EditorRow.lineWidth tables (glyphs.map (·.span)) = columnsOf glyphs := by
  rw [EditorRow.lineWidth, columnsOf, List.map_map]
  refine congrArg List.sum (List.map_congr_left fun glyph mem => ?_)
  obtain ⟨symbol, selected, caret, start, rfl⟩ := mem_glyphsFrom tables state sourceRow (drawn glyph mem)
  rfl

end EditorState

/-- As many rows of a line hold the cursor as graphemes do. -/
theorem countP_rows {width sourceRow : Nat} {parts : List (List EditorGlyph)}
    (once : parts.flatten.countP (·.cursor) ≤ 1) :
    (parts.map (EditorRow.ofGlyphs width sourceRow)).countP (·.cursor.isSome) =
      parts.flatten.countP (·.cursor) := by
  induction parts with
  | nil => rfl
  | cons part parts ih =>
    rw [List.flatten_cons, List.countP_append] at once ⊢
    rw [List.map_cons, List.countP_cons, ih (by omega), EditorRow.ofGlyphs, Filling.isSome_cursor_foldl]
    have here : (if part.any (·.cursor) then 1 else 0) = part.countP (·.cursor) := by
      split_ifs with caret
      · obtain ⟨glyph, mem, on⟩ := List.any_eq_true.mp caret
        have some : 0 < part.countP (·.cursor) := List.countP_pos_iff.mpr ⟨glyph, mem, on⟩
        omega
      · exact (List.countP_eq_zero.mpr fun glyph mem on => caret (List.any_eq_true.mpr ⟨glyph, mem, on⟩)).symm
    rw [here, Nat.add_comm]

/-- A display row draws these glyphs of its line: the span of each after those before it. -/
structure Shows (state : EditorState) (width : Nat) (chars : List Char) (row : EditorRow)
    (glyphs : List EditorGlyph) : Prop where
  line : row.line = glyphs.map (·.span)
  fits : columnsOf (glyphs.rdropWhile (·.whitespace)) ≤ width
  caret : ∀ column, row.cursor = some column → column < width ∧
    ((∃ before glyph after, glyphs = before ++ glyph :: after ∧ glyph.cursor = true ∧
        (column = columnsOf before ∨
          glyph.width = 0 ∧ columnsOf before = width ∧ column = width - 1)) ∨
      column = columnsOf glyphs ∧ state.cursorIn row.sourceRow chars = some chars.length)
  offers : ∀ position ∈ row.positions, position.1 < width ∧
    ((∃ before glyph after, glyphs = before ++ glyph :: after ∧
        position = (columnsOf before, glyph.sourceColumn)) ∨
      position = (columnsOf glyphs, chars.length))

theorem shows_ofGlyphs (state : EditorState) (sourceRow : Nat) {width : Nat} (chars : List Char)
    {glyphs : List EditorGlyph} (positive : 0 < width) (fitting : Fitting width glyphs) :
    Shows state width chars (EditorRow.ofGlyphs width sourceRow glyphs) glyphs where
  line := Filling.spans_foldl width glyphs
  fits := fitting.trimmed
  caret column held := by
    obtain ⟨before, glyph, after, split, on, same⟩ := Filling.cursor_foldl width glyphs held
    have within := fitting.caret_fits split on
    refine ⟨by omega, .inl ⟨before, glyph, after, split, on, ?_⟩⟩
    omega
  offers position held := by
    obtain ⟨inside, drawn⟩ := Filling.positions_foldl width glyphs held
    exact ⟨inside, .inl drawn⟩

namespace EditorState

variable (tables : Tables) (state : EditorState) (sourceRow : Nat) {width : Nat} (chars : List Char)

/-- The rows of a line with the glyphs they draw. -/
structure Laid (width : Nat)
    (shown : List (EditorRow × List EditorGlyph)) : Prop where
  rows : shown.map Prod.fst = state.wrap tables sourceRow chars width
  some_row : shown ≠ []
  whole : shown.flatMap Prod.snd = state.glyphs tables sourceRow chars width
  own : ∀ entry ∈ shown, entry.1.sourceRow = sourceRow
  shows : ∀ entry ∈ shown, Shows state width chars entry.1 entry.2
  carets : (state.wrap tables sourceRow chars width).countP (·.cursor.isSome) =
    if sourceRow = state.cursor.row then 1 else 0

theorem cursorIn_of_ne (other : sourceRow ≠ state.cursor.row) :
    state.cursorIn sourceRow chars = none := if_neg other

theorem cursorIn_own (own : sourceRow = state.cursor.row) :
    ∃ column, state.cursorIn sourceRow chars = some column ∧ (column < chars.length ∨
      column = chars.length ∧ (state.mode = .insert ∨ chars = [])) := by
  refine ⟨_, if_pos own, ?_⟩
  split_ifs with insert
  · exact (min_le_right _ _).lt_or_eq.imp_right fun same => ⟨same, .inl insert⟩
  · cases chars with
    | nil => exact .inr ⟨Nat.min_zero _, .inr rfl⟩
    | cons char rest =>
      refine .inl (lt_of_le_of_lt (min_le_right _ _) ?_)
      exact Nat.sub_lt (Nat.succ_pos _) one_pos

/-- An empty line has one row, for the cursor. -/
theorem laid_empty (positive : 0 < width) : state.Laid tables sourceRow [] width
    [(⟨[], sourceRow, state.cursorIn sourceRow [], [(0, 0)]⟩, [])] := by
  have none (width : Nat) : state.glyphs tables sourceRow [] width = [] :=
    (state.glyphs_eq_nil_iff tables sourceRow _).mpr rfl
  have wrapped : state.wrap tables sourceRow [] width =
      [⟨[], sourceRow, state.cursorIn sourceRow [], [(0, 0)]⟩] := by
    simp only [wrap, none, List.isEmpty_nil, if_true]
  refine ⟨wrapped.symm, List.cons_ne_nil _ _, (none width).symm, ?_, ?_, ?_⟩
  · rintro entry (_ | ⟨_, never⟩)
    · rfl
    · cases never
  · rintro entry (_ | ⟨_, never⟩)
    · refine ⟨rfl, Nat.zero_le _, fun column held => ?_, fun position held => ?_⟩
      · by_cases own : sourceRow = state.cursor.row
        · obtain ⟨at_column, same, inside | ⟨rfl, -⟩⟩ := state.cursorIn_own sourceRow [] own
          · cases inside
          · cases same.symm.trans held
            exact ⟨positive, .inr ⟨rfl, same⟩⟩
        · cases (state.cursorIn_of_ne sourceRow _ own).symm.trans held
      · cases List.mem_singleton.mp held
        exact ⟨positive, .inr rfl⟩
    · cases never
  · rw [wrapped, List.countP_singleton]
    split_ifs with held own own
    · rfl
    · rw [state.cursorIn_of_ne sourceRow _ own] at held
      cases held
    · obtain ⟨column, same, -⟩ := state.cursorIn_own sourceRow [] own
      rw [same] at held
      exact absurd rfl held
    · rfl

/-- The rows of a line of text, before the place after its end. -/
theorem laid_parts (positive : 0 < width) (text : chars ≠ []) :
    ∃ parts : List (List EditorGlyph), parts ≠ [] ∧
      parts.flatten = state.glyphs tables sourceRow chars width ∧
      EditorRow.rows width sourceRow (state.glyphs tables sourceRow chars width) =
        parts.map (EditorRow.ofGlyphs width sourceRow) ∧
      (∀ part ∈ parts, Fitting width part) ∧
      (parts.map (EditorRow.ofGlyphs width sourceRow)).countP (·.cursor.isSome) =
        if (state.cursorIn sourceRow chars).any (· < chars.length) then 1 else 0 := by
  obtain ⟨parts, whole, rows, fitting⟩ := rows_parts sourceRow
    (state.glyphs_narrow tables sourceRow chars positive)
  refine ⟨parts, ?_, whole, rows, fitting, ?_⟩
  · rintro rfl
    exact text ((state.glyphs_eq_nil_iff tables sourceRow _).mp whole.symm)
  · rw [countP_rows, whole, countP_glyphs]
    rw [whole, countP_glyphs]
    split_ifs <;> omega

/-- Rows with the glyphs they are made of. -/
def drawn (width sourceRow : Nat) (parts : List (List EditorGlyph)) :
    List (EditorRow × List EditorGlyph) :=
  parts.map fun part => (EditorRow.ofGlyphs width sourceRow part, part)

theorem fst_drawn (width sourceRow : Nat) (parts : List (List EditorGlyph)) :
    (drawn width sourceRow parts).map Prod.fst =
      parts.map (EditorRow.ofGlyphs width sourceRow) := by
  rw [drawn, List.map_map]
  rfl

theorem snd_drawn (width sourceRow : Nat) (parts : List (List EditorGlyph)) :
    (drawn width sourceRow parts).flatMap Prod.snd = parts.flatten := by
  rw [drawn, List.flatMap_map, List.flatMap_id']

theorem wrap_text (positive : 0 < width) (text : chars ≠ []) :
    state.wrap tables sourceRow chars width =
      if state.mode = .insert then
        EditorRow.placeEndCursor tables
          (EditorRow.rows width sourceRow (state.glyphs tables sourceRow chars width)) sourceRow
          chars.length width (state.cursorIn sourceRow chars = some chars.length)
      else EditorRow.rows width sourceRow (state.glyphs tables sourceRow chars width) := by
  have some : (state.glyphs tables sourceRow chars width).isEmpty = false :=
    List.isEmpty_eq_false_iff.mpr fun none => text ((state.glyphs_eq_nil_iff tables sourceRow _).mp none)
  simp only [wrap, Nat.max_eq_left (Nat.succ_le_of_lt positive), some, Bool.false_eq_true, if_false]

theorem placeEndCursor_concat {rows : List EditorRow} {last : EditorRow} {column : Nat}
    {hasCursor : Bool} :
    EditorRow.placeEndCursor tables (rows ++ [last]) sourceRow column width hasCursor =
      if EditorRow.lineWidth tables last.line < width then
        rows ++ [{ last with
          positions := last.positions ++ [(EditorRow.lineWidth tables last.line, column)]
          cursor := if hasCursor then some (EditorRow.lineWidth tables last.line) else last.cursor }]
      else if hasCursor then rows ++ [last] ++ [⟨[], sourceRow, some 0, [(0, column)]⟩]
      else rows ++ [last] := by
  simp only [EditorRow.placeEndCursor, List.getLast?_concat, List.dropLast_concat]

theorem carets_of_ne (early : state.cursorIn sourceRow chars ≠ some chars.length) :
    (if (state.cursorIn sourceRow chars).any (· < chars.length) then 1 else 0) =
      if sourceRow = state.cursor.row then 1 else 0 := by
  split_ifs with on own own
  · rfl
  · rw [state.cursorIn_of_ne sourceRow _ own] at on
    cases on
  · obtain ⟨column, held, inside | ⟨rfl, -⟩⟩ := state.cursorIn_own sourceRow chars own
    · rw [held] at on
      exact absurd (decide_eq_true inside) on
    · exact absurd held early
  · rfl

theorem own_of_end (ends : state.cursorIn sourceRow chars = some chars.length) :
    sourceRow = state.cursor.row := by
  by_contra other
  cases (state.cursorIn_of_ne sourceRow _ other).symm.trans ends

/-- Rows that the place after the end of the line does not change. -/
theorem laid_drawn {parts : List (List EditorGlyph)} (some_part : parts ≠ [])
    (positive : 0 < width) (whole : parts.flatten = state.glyphs tables sourceRow chars width)
    (fitting : ∀ part ∈ parts, Fitting width part)
    (carets : (parts.map (EditorRow.ofGlyphs width sourceRow)).countP (·.cursor.isSome) =
      if (state.cursorIn sourceRow chars).any (· < chars.length) then 1 else 0)
    (early : state.cursorIn sourceRow chars ≠ some chars.length)
    (wrapped : state.wrap tables sourceRow chars width =
      parts.map (EditorRow.ofGlyphs width sourceRow)) :
    state.Laid tables sourceRow chars width (drawn width sourceRow parts) where
  rows := (fst_drawn ..).trans wrapped.symm
  some_row := fun none => some_part (List.map_eq_nil_iff.mp none)
  whole := (snd_drawn ..).trans whole
  own entry mem := by
    obtain ⟨part, -, rfl⟩ := List.mem_map.mp mem
    rfl
  shows entry mem := by
    obtain ⟨part, held, rfl⟩ := List.mem_map.mp mem
    exact shows_ofGlyphs state sourceRow chars positive (fitting part held)
  carets := by rw [wrapped, carets, state.carets_of_ne sourceRow chars early]

/-- Rows of which the place after the end of the line changes the last. -/
theorem laid_init {init : List (List EditorGlyph)} {last : List EditorGlyph} {row : EditorRow}
    (wrapped : state.wrap tables sourceRow chars width =
      init.map (EditorRow.ofGlyphs width sourceRow) ++ [row])
    (whole : (init ++ [last]).flatten = state.glyphs tables sourceRow chars width)
    (positive : 0 < width) (fitting : ∀ part ∈ init, Fitting width part)
    (own : row.sourceRow = sourceRow) (shows : Shows state width chars row last)
    (carets : (init.map (EditorRow.ofGlyphs width sourceRow) ++ [row]).countP (·.cursor.isSome) =
      if sourceRow = state.cursor.row then 1 else 0) :
    state.Laid tables sourceRow chars width (drawn width sourceRow init ++ [(row, last)]) where
  rows := by rw [List.map_append, fst_drawn, wrapped, List.map_singleton]
  some_row := List.append_ne_nil_of_right_ne_nil _ (List.cons_ne_nil _ _)
  whole := by
    rw [List.flatMap_append, snd_drawn, ← whole, List.flatten_append]
    rfl
  own entry mem := by
    rcases List.mem_append.mp mem with mem | mem
    · obtain ⟨part, -, rfl⟩ := List.mem_map.mp mem
      rfl
    · cases List.mem_singleton.mp mem
      exact own
  shows entry mem := by
    rcases List.mem_append.mp mem with mem | mem
    · obtain ⟨part, held, rfl⟩ := List.mem_map.mp mem
      exact shows_ofGlyphs state sourceRow chars positive (fitting part held)
    · cases List.mem_singleton.mp mem
      exact shows
  carets := by rw [wrapped, carets]

/-- Every line is laid out in rows. -/
theorem laid (positive : 0 < width) : ∃ shown, state.Laid tables sourceRow chars width shown := by
  by_cases text : chars = []
  · subst text
    exact ⟨_, state.laid_empty tables sourceRow positive⟩
  obtain ⟨parts, some_part, whole, rows, fitting, carets⟩ :=
    state.laid_parts tables sourceRow chars positive text
  have unchanged := state.laid_drawn tables sourceRow chars some_part positive whole fitting carets
  have wrapped := state.wrap_text tables sourceRow chars positive text
  rw [rows] at wrapped
  by_cases insert : state.mode = .insert
  · rw [if_pos insert] at wrapped
    obtain ⟨init, last, rfl⟩ := (List.eq_nil_or_concat' parts).resolve_left some_part
    have mem_last : last ∈ init ++ [last] := List.mem_append_right _ (List.mem_singleton_self _)
    have shows_last := shows_ofGlyphs state sourceRow chars positive
      (fitting last mem_last)
    have own_width : EditorRow.lineWidth tables (EditorRow.ofGlyphs width sourceRow last).line =
        columnsOf last := by
      rw [shows_last.line, state.lineWidth_glyphs tables sourceRow chars]
      intro glyph mem
      rw [← whole]
      exact List.mem_flatten.mpr ⟨last, mem_last, mem⟩
    rw [List.map_append, List.map_singleton, placeEndCursor_concat, own_width] at wrapped
    have offers : columnsOf last < width → ∀ position ∈
        (EditorRow.ofGlyphs width sourceRow last).positions ++ [(columnsOf last, chars.length)],
        position.1 < width ∧ ((∃ before glyph after, last = before ++ glyph :: after ∧
            position = (columnsOf before, glyph.sourceColumn)) ∨
          position = (columnsOf last, chars.length)) := by
      intro free position mem
      rcases List.mem_append.mp mem with old | new
      · exact shows_last.offers position old
      · rw [List.mem_singleton.mp new]
        exact ⟨free, .inr rfl⟩
    have fitting_init : ∀ part ∈ init, Fitting width part :=
      fun part mem => fitting part (List.mem_append_left _ mem)
    by_cases ends : state.cursorIn sourceRow chars = some chars.length
    · -- No grapheme has the cursor: it is after them, on their last row or one of its own.
      have own := state.own_of_end sourceRow chars ends
      rw [if_neg (by rw [ends]; simp)] at carets
      simp only [decide_eq_true ends, if_true] at wrapped
      by_cases free : columnsOf last < width
      · rw [if_pos free] at wrapped
        refine ⟨_, state.laid_init tables sourceRow chars wrapped whole positive fitting_init rfl
          ⟨shows_last.line, shows_last.fits, fun column held => ?_, offers free⟩ ?_⟩
        · cases held
          exact ⟨free, .inr ⟨rfl, ends⟩⟩
        · rw [List.map_append, List.countP_append] at carets
          rw [List.countP_append, if_pos own, Nat.eq_zero_of_add_eq_zero_right carets]
          rfl
      · rw [if_neg free] at wrapped
        have whole_end : (init ++ [last] ++ [[]]).flatten =
            state.glyphs tables sourceRow chars width := by
          rw [List.flatten_append, whole]
          exact List.append_nil _
        rw [← List.map_singleton, ← List.map_append] at wrapped
        refine ⟨_, state.laid_init tables sourceRow chars wrapped whole_end positive fitting rfl
          ⟨rfl, Nat.zero_le _, fun column held => ?_, fun position held => ?_⟩ ?_⟩
        · cases held
          exact ⟨positive, .inr ⟨rfl, ends⟩⟩
        · rw [List.mem_singleton.mp held]
          exact ⟨positive, .inr rfl⟩
        · rw [List.countP_append, carets, if_pos own]
          rfl
    · simp only [decide_eq_false ends, Bool.false_eq_true, if_false] at wrapped
      by_cases free : columnsOf last < width
      · rw [if_pos free] at wrapped
        refine ⟨_, state.laid_init tables sourceRow chars wrapped whole positive fitting_init rfl
          ⟨shows_last.line, shows_last.fits, shows_last.caret, offers free⟩ ?_⟩
        rw [state.carets_of_ne sourceRow chars ends, List.map_append, List.countP_append] at carets
        rw [← carets, List.countP_append]
        rfl
      · rw [if_neg free] at wrapped
        exact ⟨_, unchanged ends (wrapped.trans (by rw [List.map_append, List.map_singleton]))⟩
  · rw [if_neg insert] at wrapped
    refine ⟨_, unchanged (fun ends => ?_) wrapped⟩
    obtain ⟨column, held, inside | ⟨-, typing | none⟩⟩ :=
      state.cursorIn_own sourceRow chars (state.own_of_end sourceRow chars ends)
    · cases held.symm.trans ends
      exact lt_irrefl _ inside
    · exact insert typing
    · exact text none

/-- A line of the text; none is empty. -/
def line (row : Nat) : List Char := (state.lines[row]?).getD []

/-- The rows of a run of lines, the first of which has a number, with the glyphs they draw. -/
structure Stacked (first width : Nat) (lines : List (List Char)) (document : List EditorRow)
    (shown : List (EditorRow × List EditorGlyph)) : Prop where
  rows : shown.map Prod.fst = document
  below : ∀ entry ∈ shown, first ≤ entry.1.sourceRow
  shows : ∀ entry ∈ shown,
    Shows state width ((lines[entry.1.sourceRow - first]?).getD []) entry.1 entry.2
  whole : ∀ row, first ≤ row → (shown.filter fun entry => entry.1.sourceRow = row).flatMap Prod.snd =
    state.glyphs tables row ((lines[row - first]?).getD []) width
  order : (document.map (·.sourceRow)).Pairwise (· ≤ ·)
  carets : document.countP (·.cursor.isSome) =
    if first ≤ state.cursor.row ∧ state.cursor.row < first + lines.length then 1 else 0

theorem stacked (positive : 0 < width) (first : Nat) (lines : List (List Char)) :
    ∃ shown, state.Stacked tables first width lines
      ((lines.zipIdx first).flatMap fun (chars, row) => state.wrap tables row chars width) shown := by
  induction lines generalizing first with
  | nil =>
    refine ⟨[], rfl, fun _ mem => absurd mem List.not_mem_nil, fun _ mem => absurd mem List.not_mem_nil,
      fun row _ => ((state.glyphs_eq_nil_iff tables row _).mpr rfl).symm, List.Pairwise.nil, ?_⟩
    rw [if_neg fun inside => absurd inside.2 (not_lt.mpr inside.1)]
    rfl
  | cons chars lines ih =>
    obtain ⟨own, laid⟩ := state.laid tables first chars positive
    obtain ⟨later, stack⟩ := ih (first + 1)
    have after : ∀ row, first + 1 ≤ row → (chars :: lines)[row - first]? = lines[row - (first + 1)]? := by
      intro row past
      rw [show row - first = row - (first + 1) + 1 by omega, List.getElem?_cons_succ]
    refine ⟨own ++ later, ?_, fun entry mem => ?_, fun entry mem => ?_, fun row past => ?_, ?_, ?_⟩
    · rw [List.map_append, laid.rows, stack.rows, List.zipIdx_cons, List.flatMap_cons]
    · rcases List.mem_append.mp mem with mem | mem
      · exact (laid.own entry mem).ge
      · exact (Nat.le_succ first).trans (stack.below entry mem)
    · rcases List.mem_append.mp mem with mem | mem
      · rw [laid.own entry mem, Nat.sub_self]
        exact laid.shows entry mem
      · rw [after _ (stack.below entry mem)]
        exact stack.shows entry mem
    · rw [List.filter_append, List.flatMap_append]
      rcases past.eq_or_lt with rfl | past
      · have mine : own.filter (fun entry => entry.1.sourceRow = first) = own :=
          List.filter_eq_self.mpr fun entry mem => decide_eq_true (laid.own entry mem)
        have theirs : later.filter (fun entry => entry.1.sourceRow = first) = [] :=
          List.filter_eq_nil_iff.mpr fun entry mem same =>
            absurd (of_decide_eq_true same) (Nat.lt_of_succ_le (stack.below entry mem)).ne'
        rw [mine, theirs, laid.whole, Nat.sub_self]
        exact List.append_nil _
      · have mine : own.filter (fun entry => entry.1.sourceRow = row) = [] :=
          List.filter_eq_nil_iff.mpr fun entry mem same =>
            absurd ((laid.own entry mem).symm.trans (of_decide_eq_true same)) past.ne
        rw [mine, after row past, ← stack.whole row past]
        rfl
    · rw [List.zipIdx_cons, List.flatMap_cons, List.map_append, List.pairwise_append]
      have rows_own : ∀ row ∈ state.wrap tables first chars width, row.sourceRow = first := by
        intro row mem
        rw [← laid.rows] at mem
        obtain ⟨entry, held, rfl⟩ := List.mem_map.mp mem
        exact laid.own entry held
      refine ⟨?_, stack.order, ?_⟩
      · refine List.pairwise_map.mpr (List.pairwise_of_forall_mem_list fun row mem other held => ?_)
        rw [rows_own row mem, rows_own other held]
      · intro here mem there held
        obtain ⟨row, row_mem, rfl⟩ := List.mem_map.mp mem
        obtain ⟨other, other_mem, rfl⟩ := List.mem_map.mp held
        rw [← stack.rows] at other_mem
        obtain ⟨entry, entry_mem, rfl⟩ := List.mem_map.mp other_mem
        rw [rows_own row row_mem]
        exact (Nat.le_succ first).trans (stack.below entry entry_mem)
    · rw [List.zipIdx_cons, List.flatMap_cons, List.countP_append, laid.carets, stack.carets,
        List.length_cons]
      split_ifs <;> omega

/-- A text without lines is shown as one empty line. -/
theorem document_lines (positive : 0 < width) : ∃ lines : List (List Char),
    lines.length = max state.lines.length 1 ∧ (∀ row, (lines[row]?).getD [] = state.line row) ∧
      state.document tables width =
        (lines.zipIdx 0).flatMap fun (chars, row) => state.wrap tables row chars width := by
  unfold document
  cases held : state.lines with
  | nil =>
    refine ⟨[[]], rfl, fun row => ?_, ?_⟩
    · rw [line, held]
      cases row <;> rfl
    · exact (List.append_nil _).symm
  | cons chars rest =>
    refine ⟨chars :: rest, ?_, fun row => by rw [line, held], ?_⟩
    · exact (Nat.max_eq_left (Nat.succ_le_of_lt (Nat.succ_pos _))).symm
    · obtain ⟨shown, laid⟩ := state.laid tables 0 chars positive
      have some : state.wrap tables 0 chars width ≠ [] := by
        rw [← laid.rows]
        exact fun none => laid.some_row (List.map_eq_nil_iff.mp none)
      refine if_neg fun none => ?_
      exact List.append_ne_nil_of_left_ne_nil some _ (List.isEmpty_iff.mp none)

/-- Every grapheme of a text is drawn once, on a row of its line and in order; one row holds
the cursor, at the grapheme it is on or after the last one of its line. -/
theorem document_shown (positive : 0 < width)
    (inside : state.cursor.row < max state.lines.length 1) :
    ∃ shown : List (EditorRow × List EditorGlyph),
      shown.map Prod.fst = state.document tables width ∧
      (∀ entry ∈ shown, Shows state width (state.line entry.1.sourceRow) entry.1 entry.2) ∧
      (∀ row, (shown.filter fun entry => entry.1.sourceRow = row).flatMap Prod.snd =
        state.glyphs tables row (state.line row) width) ∧
      ((state.document tables width).map (·.sourceRow)).Pairwise (· ≤ ·) ∧
      (state.document tables width).countP (·.cursor.isSome) = 1 := by
  obtain ⟨lines, length, same, document⟩ := state.document_lines tables positive
  obtain ⟨shown, stack⟩ := state.stacked tables positive 0 lines
  rw [document]
  refine ⟨shown, stack.rows, fun entry mem => ?_, fun row => ?_, stack.order, ?_⟩
  · rw [← same]
    exact stack.shows entry mem
  · rw [← same]
    exact stack.whole row (Nat.zero_le _)
  · rw [stack.carets, if_pos]
    rw [Nat.zero_add, length]
    exact ⟨Nat.zero_le _, inside⟩

end EditorState

/-! A line with a grapheme of no width after a full row. -/

/-- Every character on its own, a zero width space without a column. -/
def plainTables : Tables where
  graphemes text := text.map ([·])
  columns text := (text.filter (· ≠ '\u200B')).length
  flatten_graphemes text := by
    rw [← List.flatMap_def, List.flatMap_singleton']
  graphemes_ne_nil text symbol mem := by
    obtain ⟨char, -, rfl⟩ := List.mem_map.mp mem
    exact List.cons_ne_nil _ _
  columns_spaces count := by
    rw [List.filter_eq_self.mpr, List.length_replicate]
    intro char mem
    rw [List.eq_of_mem_replicate mem]
    rfl
  columns_replacement := rfl

def clamped : EditorState := ⟨[['a', '\u200B']], ⟨0, 1⟩, .normal, none, []⟩

theorem clamped_document : clamped.document plainTables 1 =
    [⟨[⟨['a'], false⟩, ⟨['\u200B'], false⟩], 0, some 0, [(0, 0)]⟩] := by
  decide +kernel

theorem clamped_glyphs : clamped.glyphs plainTables 0 (clamped.line 0) 1 =
    [⟨⟨['a'], false⟩, 1, false, false, 0⟩, ⟨⟨['\u200B'], false⟩, 0, false, true, 1⟩] := by
  decide

/-- The cursor on such a grapheme is not at the column after the full row. -/
theorem cursor_clamped : ¬∀ (tables : Tables) (state : EditorState) (width : Nat), 0 < width →
    state.cursor.row < max state.lines.length 1 → state.mode = .normal →
    ∃ shown : List (EditorRow × List EditorGlyph),
      shown.map Prod.fst = state.document tables width ∧
      (∀ row, (shown.filter fun entry => entry.1.sourceRow = row).flatMap Prod.snd =
        state.glyphs tables row (state.line row) width) ∧
      ∀ entry ∈ shown, ∀ column, entry.1.cursor = some column →
        ∃ before glyph after, entry.2 = before ++ glyph :: after ∧ glyph.cursor = true ∧
          column = columnsOf before := by
  intro exact_column
  obtain ⟨shown, rows, whole, caret⟩ :=
    exact_column plainTables clamped 1 one_pos (by decide) rfl
  rw [clamped_document] at rows
  obtain ⟨⟨row, glyphs⟩, rest, rfl, rfl, none⟩ := List.map_eq_cons_iff.mp rows
  cases List.map_eq_nil_iff.mp none
  have held : glyphs = clamped.glyphs plainTables 0 (clamped.line 0) 1 := by
    rw [← whole 0]
    exact (List.append_nil glyphs).symm
  obtain ⟨before, glyph, after, split, on, start⟩ := caret _ (List.mem_singleton_self _) 0 rfl
  dsimp only at split
  rw [held, clamped_glyphs] at split
  -- The first glyph is not the cursor's, so one of a column is before it.
  match before, split with
  | [], split => cases split; cases on
  | first :: before, split =>
    obtain ⟨rfl, -⟩ := List.cons_eq_cons.mp split
    have start : 0 = 1 + columnsOf before := start
    omega

def words : EditorState := ⟨["ab cd".toList], ⟨0, 5⟩, .insert, none, []⟩

/-- Two words with the cursor after them, in rows of three columns. -/
theorem document_shown_words : (words.document plainTables 3).map (·.cursor) = [none, some 2] ∧
    ∃ shown : List (EditorRow × List EditorGlyph),
      shown.map Prod.fst = words.document plainTables 3 ∧
      (shown.filter fun entry => entry.1.sourceRow = 0).flatMap Prod.snd =
        words.glyphs plainTables 0 "ab cd".toList 3 := by
  obtain ⟨shown, rows, -, whole, -, -⟩ :=
    @EditorState.document_shown plainTables words 3 (by decide) (by decide)
  exact ⟨by decide +kernel, shown, rows, whole 0⟩

end ProgressiveReviewer.Editor
