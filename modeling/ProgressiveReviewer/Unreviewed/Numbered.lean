import ProgressiveReviewer.Library.Fields
import Mathlib.Data.List.Lattice

/-! The unreviewed hunks of one path as the numbered text that an agent reads
(`review-explore-session/src/unreviewed_diffs.rs`, `review-state/src/open_rows.rs`). -/

namespace ProgressiveReviewer.Unreviewed

open Library

/-- What one row of an open hunk does to the file. -/
inductive RowChange where
  | unchanged
  | removed
  | added
  deriving DecidableEq, Repr

/-- One row of an open hunk, with one-based line numbers. -/
structure OpenRow where
  change : RowChange
  /-- The row's line in the base. A removed row without one rewrites a line that was reviewed
  earlier and that the base never had. -/
  baseLine : Option Nat
  /-- The row's line in the current file; removed rows have none. -/
  currentLine : Option Nat
  /-- The line's content, without a diff marker. -/
  text : List Char
  deriving DecidableEq, Repr

/-- The numbers that a reader of the row sees: an added row shows no base line. -/
def OpenRow.shown (row : OpenRow) : OpenRow :=
  match row.change with
  | .unchanged | .removed => row
  | .added => { row with baseLine := none }

/-- One path's unreviewed hunks. -/
structure FileDiff where
  name : List Char
  hunks : List (List OpenRow)
  deriving DecidableEq, Repr

/-- The diff with the numbers that a reader of it sees. -/
def FileDiff.shown (diff : FileDiff) : FileDiff :=
  { diff with hunks := diff.hunks.map (List.map OpenRow.shown) }

/-- A line number, or nothing. -/
def number (line : Option Nat) : List Char := line.elim [] (Nat.toDigits 10)

/-- The columns of the line numbers are as wide as the largest of them. -/
def width (hunks : List (List OpenRow)) : Nat :=
  let largest := (hunks.flatten.filterMap fun row => max row.baseLine row.currentLine).max?
  max (Nat.toDigits 10 (largest.getD 0)).length 3

def marker : RowChange → Char
  | .unchanged => ' '
  | .removed => '-'
  | .added => '+'

def header (width : Nat) : List Char :=
  List.leftpad width ' ' "old".toList ++ ' ' :: List.leftpad width ' ' "new".toList

def rowLine (width : Nat) (row : OpenRow) : List Char :=
  List.leftpad width ' ' (number row.shown.baseLine) ++
    ' ' :: List.leftpad width ' ' (number row.currentLine) ++
    ' ' :: marker row.change :: ' ' :: row.text

def hunkLines (width : Nat) (hunk : List OpenRow) : List (List Char) :=
  [] :: header width :: hunk.map (rowLine width)

namespace FileDiff

/-- What the first line says after the name. -/
def title : List Char := ": unreviewed lines".toList

/-- The lines after the first. -/
def body (diff : FileDiff) : List (List Char) :=
  if diff.hunks.isEmpty then
    ["No text lines to show: a binary, mode or whole-file change.".toList]
  else
    "old = line in the base, new = line in the current file. A - row without a number".toList ::
    "rewrites a reviewed line: mark it with the numbered rows of its change, or the".toList ::
    "whole file when its change has none.".toList ::
    diff.hunks.flatMap (hunkLines (width diff.hunks))

/-- The text as `fmt` writes it. -/
def display (diff : FileDiff) : List Char :=
  diff.name ++ title ++ '\n' :: closeAll '\n' diff.body

end FileDiff

end ProgressiveReviewer.Unreviewed

/-! The text of a diff tells which diff it is: its name, and every row with the numbers that
it shows. -/

namespace ProgressiveReviewer.Unreviewed

open Library

section Columns

variable {width : Nat} {text other : List Char}

theorem dropWhile_leftpad (solid : ' ' ∉ text) :
    (List.leftpad width ' ' text).dropWhile (· = ' ') = text := by
  have kept : text.dropWhile (· = ' ') = text := by
    cases text with
    | nil => rfl
    | cons first rest => simp_all [eq_comm]
  rw [List.leftpad, List.dropWhile_append_of_pos (by simp +contextual), kept]

theorem length_leftpad_of_le (fits : text.length ≤ width) :
    (List.leftpad width ' ' text).length = width := by
  simp [List.leftpad, fits]

theorem leftpad_injective (solid : ' ' ∉ text) (solid' : ' ' ∉ other)
    (same : List.leftpad width ' ' text = List.leftpad width ' ' other) : text = other := by
  rw [← @dropWhile_leftpad width _ solid, same, dropWhile_leftpad solid']

theorem space_notMem_number (line : Option Nat) : ' ' ∉ number line := by
  cases line with
  | none => simp [number]
  | some n =>
    intro mem
    have digit : ' '.isDigit = true := Nat.isDigit_of_mem_toDigits (by decide) (by decide) mem
    exact absurd digit (by decide)

theorem number_injective : Function.Injective number := by
  intro line line' same
  cases line with
  | none =>
    cases line' with
    | none => rfl
    | some n => exact absurd same.symm Nat.toDigits_ne_nil
  | some m =>
    cases line' with
    | none => exact absurd same Nat.toDigits_ne_nil
    | some n =>
      have values := congrArg (Nat.ofDigitChars 10 · 0) same
      simpa [number, Nat.ofDigitChars_ten_toDigits] using values

end Columns

section Rows

variable {columns : Nat} {row row' : OpenRow}

/-- The numbers of the row fit in the columns. -/
def Fits (columns : Nat) (row : OpenRow) : Prop :=
  (number row.shown.baseLine).length ≤ columns ∧ (number row.currentLine).length ≤ columns

theorem rowLine_injective (fits : Fits columns row) (fits' : Fits columns row')
    (same : rowLine columns row = rowLine columns row') : row.shown = row'.shown := by
  have lengths := (length_leftpad_of_le fits.1).trans (length_leftpad_of_le fits'.1).symm
  have lengths' := (length_leftpad_of_le fits.2).trans (length_leftpad_of_le fits'.2).symm
  simp only [rowLine, List.append_assoc, List.cons_append] at same
  obtain ⟨old, rest⟩ := List.append_inj same lengths
  obtain ⟨new, rest⟩ := List.append_inj (List.cons.inj rest).2 lengths'
  have old := number_injective
    (leftpad_injective (space_notMem_number _) (space_notMem_number _) old)
  have new := number_injective
    (leftpad_injective (space_notMem_number _) (space_notMem_number _) new)
  simp only [List.cons.injEq, true_and] at rest
  obtain ⟨change, text⟩ := rest
  cases row with | mk kind base current line =>
  cases row' with | mk kind' base' current' line' =>
  cases kind <;> cases kind' <;> simp_all [OpenRow.shown, marker]

theorem map_shown {rows rows' : List OpenRow} (fits : ∀ row ∈ rows, Fits columns row)
    (fits' : ∀ row ∈ rows', Fits columns row)
    (same : rows.map (rowLine columns) = rows'.map (rowLine columns)) :
    rows.map OpenRow.shown = rows'.map OpenRow.shown := by
  induction rows generalizing rows' with
  | nil =>
    obtain rfl : rows' = [] := List.map_eq_nil_iff.mp same.symm
    rfl
  | cons row rows ih =>
    cases rows' with
    | nil => exact absurd same (List.cons_ne_nil _ _)
    | cons row' rows' =>
      simp only [List.map_cons, List.cons.injEq] at same ⊢
      obtain ⟨fitsRow, fits⟩ := List.forall_mem_cons.mp fits
      obtain ⟨fitsRow', fits'⟩ := List.forall_mem_cons.mp fits'
      exact ⟨rowLine_injective fitsRow fitsRow' same.1, ih fits fits' same.2⟩

theorem rowLine_ne_nil : rowLine columns row ≠ [] := by simp [rowLine]

theorem newline_notMem_rowLine (clean : '\n' ∉ row.text) : '\n' ∉ rowLine columns row := by
  have digits : ∀ line, '\n' ∉ number line := by
    intro line
    cases line with
    | none => simp [number]
    | some n =>
      intro mem
      have digit : '\n'.isDigit = true := Nat.isDigit_of_mem_toDigits (by decide) (by decide) mem
      exact absurd digit (by decide)
  have mark : '\n' ≠ marker row.change := by cases row.change <;> decide
  simp [rowLine, List.leftpad, digits, mark, clean]

/-- The columns are wide enough for every number. -/
theorem fits_width {hunks : List (List OpenRow)} {hunk : List OpenRow} (held : hunk ∈ hunks)
    (mem : row ∈ hunk) : Fits (width hunks) row := by
  have bound : ∀ line, line ≤ max row.baseLine row.currentLine →
      (number line).length ≤ width hunks := by
    intro line le
    cases line with
    | none => simp [number]
    | some n =>
      obtain ⟨m, larger, le⟩ : ∃ m, max row.baseLine row.currentLine = some m ∧ n ≤ m := by
        cases larger : max row.baseLine row.currentLine with
        | none => simp [larger] at le
        | some m => exact ⟨m, rfl, by simpa [larger] using le⟩
      have counted : m ∈ hunks.flatten.filterMap fun row => max row.baseLine row.currentLine :=
        List.mem_filterMap.mpr ⟨row, List.mem_flatten.mpr ⟨hunk, held, mem⟩, larger⟩
      obtain ⟨largest, found⟩ := Option.isSome_iff_exists.mp (List.isSome_max?_of_mem counted)
      have below : n ≤ largest := le.trans ((List.max?_le_iff found).mp (Nat.le_refl _) m counted)
      refine Nat.le_trans ?_ (Nat.le_max_left _ _)
      rw [found, Option.getD_some]
      refine (Nat.length_toDigits_le_iff (by decide) Nat.length_toDigits_pos).mpr ?_
      exact below.trans_lt ((Nat.length_toDigits_le_iff (by decide) Nat.length_toDigits_pos).mp
        (Nat.le_refl _))
  refine ⟨?_, bound _ (Option.right_le_max Nat.le_refl Nat.le_max_right)⟩
  have base := bound row.baseLine (Option.left_le_max Nat.le_refl Nat.le_max_left)
  cases kind : row.change <;> simp [OpenRow.shown, kind, number] at base ⊢ <;> exact base

end Rows

section Hunks

variable {columns columns' : Nat} {hunks hunks' : List (List OpenRow)}

theorem length_header (wide : 3 ≤ columns) : (header columns).length = columns + 1 + columns := by
  simp only [header, List.length_append, List.length_cons]
  rw [length_leftpad_of_le (by simpa using wide), length_leftpad_of_le (by simpa using wide)]
  omega

/-- A list that starts with what passes, up to where something does not pass. -/
theorem takeWhile_append {α : Type} {p : α → Bool} {front back : List α}
    (passes : ∀ a ∈ front, p a = true) (stops : ∀ a, back.head? = some a → p a = false) :
    (front ++ back).takeWhile p = front ∧ (front ++ back).dropWhile p = back := by
  rw [List.takeWhile_append_of_pos passes, List.dropWhile_append_of_pos passes]
  cases back with
  | nil => simp
  | cons first rest => simp [stops first rfl]

/-- An empty line starts every hunk and stands nowhere else. -/
theorem hunkLines_injective (fits : ∀ hunk ∈ hunks, ∀ row ∈ hunk, Fits columns row)
    (fits' : ∀ hunk ∈ hunks', ∀ row ∈ hunk, Fits columns row)
    (same : hunks.flatMap (hunkLines columns) = hunks'.flatMap (hunkLines columns)) :
    hunks.map (List.map OpenRow.shown) = hunks'.map (List.map OpenRow.shown) := by
  induction hunks generalizing hunks' with
  | nil =>
    cases hunks' with
    | nil => rfl
    | cons hunk' rest' => simp [hunkLines] at same
  | cons hunk rest ih =>
    cases hunks' with
    | nil => simp [hunkLines] at same
    | cons hunk' rest' =>
      have stops : ∀ hunks : List (List OpenRow), ∀ line,
          (hunks.flatMap (hunkLines columns)).head? = some line → decide (line ≠ []) = false := by
        intro hunks line first
        cases hunks <;> simp_all [hunkLines]
      have passes : ∀ rows : List OpenRow, ∀ line ∈ rows.map (rowLine columns),
          decide (line ≠ []) = true := by
        intro rows line mem
        obtain ⟨row, -, rfl⟩ := List.mem_map.mp mem
        exact decide_eq_true rowLine_ne_nil
      simp only [List.flatMap_cons, hunkLines, List.cons_append, List.cons.injEq, true_and] at same
      have front := takeWhile_append (passes hunk) (stops rest)
      have front' := takeWhile_append (passes hunk') (stops rest')
      have rows : hunk.map (rowLine columns) = hunk'.map (rowLine columns) := by
        rw [← front.1, ← front'.1, same]
      have others : rest.flatMap (hunkLines columns) = rest'.flatMap (hunkLines columns) := by
        rw [← front.2, ← front'.2, same]
      obtain ⟨fitsHunk, fits⟩ := List.forall_mem_cons.mp fits
      obtain ⟨fitsHunk', fits'⟩ := List.forall_mem_cons.mp fits'
      rw [List.map_cons, List.map_cons, ih fits fits' others]
      exact congrArg (· :: _) (map_shown fitsHunk fitsHunk' rows)

theorem three_le_width : 3 ≤ width hunks := Nat.le_max_right _ _

end Hunks

/-- How the line after the name starts, and no line after that. -/
def opens (line : List Char) : Bool :=
  "No ".toList.isPrefixOf line || "old =".toList.isPrefixOf line

/-- A line that opens starts with a letter. -/
theorem not_opens {first : Char} {rest : List Char} (small : first ≠ 'o') (large : first ≠ 'N') :
    opens (first :: rest) = false := by
  simp [opens, List.isPrefixOf, Ne.symm small, Ne.symm large]

theorem opens_rowLine {columns : Nat} {row : OpenRow} : opens (rowLine columns row) = false := by
  have letters : ∀ line, ∀ c ∈ List.leftpad columns ' ' (number line), c ≠ 'o' ∧ c ≠ 'N' := by
    intro line c mem
    rcases List.mem_append.mp mem with pad | digit
    · rw [List.eq_of_mem_replicate pad]
      decide
    · cases line with
      | none => simp [number] at digit
      | some n =>
        have digit : c.isDigit = true :=
          Nat.isDigit_of_mem_toDigits (by decide) (by decide) digit
        constructor <;> rintro rfl <;> exact absurd digit (by decide)
  rw [rowLine, List.append_assoc]
  cases start : List.leftpad columns ' ' (number row.shown.baseLine) with
  | nil => exact not_opens (by decide) (by decide)
  | cons first rest =>
    have letter := letters row.shown.baseLine first (start ▸ List.mem_cons_self)
    exact not_opens letter.1 letter.2

theorem opens_header {columns : Nat} (wide : 3 ≤ columns) : opens (header columns) = false := by
  rcases wide.eq_or_lt with rfl | wide
  · decide
  · obtain ⟨more, rfl⟩ := Nat.exists_eq_add_of_lt wide
    have pad : List.leftpad (3 + more + 1) ' ' "old".toList =
        ' ' :: List.replicate more ' ' ++ "old".toList := by
      have gap : 3 + more + 1 - "old".toList.length = more + 1 := by
        have size : "old".toList.length = 3 := by decide
        omega
      rw [List.leftpad, gap]
      rfl
    rw [header, pad]
    exact not_opens (by decide) (by decide)

namespace FileDiff

variable {diff diff' : FileDiff}

/-- The rows hold lines. -/
def OfLines (diff : FileDiff) : Prop := ∀ hunk ∈ diff.hunks, ∀ row ∈ hunk, '\n' ∉ row.text

theorem body_spec : ∃ first rest, diff.body = first :: rest ∧ opens first = true ∧
    ∀ line ∈ rest, opens line = false := by
  unfold body
  split
  · exact ⟨_, [], rfl, by decide, by simp⟩
  · refine ⟨_, _, rfl, by decide, ?_⟩
    simp only [List.mem_flatMap, hunkLines, List.mem_cons, List.mem_map]
    rintro line (rfl | rfl | ⟨hunk, -, rfl | rfl | ⟨row, -, rfl⟩⟩)
    · decide
    · decide
    · decide
    · exact opens_header three_le_width
    · exact opens_rowLine

theorem newline_notMem_body (clean : diff.OfLines) : ∀ line ∈ diff.body, '\n' ∉ line := by
  unfold body
  split
  · simp only [List.forall_mem_singleton]
    decide
  · simp only [List.mem_flatMap, hunkLines, List.mem_cons, List.mem_map]
    rintro line (rfl | rfl | rfl | ⟨hunk, held, rfl | rfl | ⟨row, mem, rfl⟩⟩)
    · decide
    · decide
    · decide
    · decide
    · simp [header, List.leftpad]
    · exact newline_notMem_rowLine (clean hunk held row mem)

theorem body_injective (same : diff.body = diff'.body) :
    diff.hunks.map (List.map OpenRow.shown) = diff'.hunks.map (List.map OpenRow.shown) := by
  unfold body at same
  split at same
  · rename_i none
    split at same
    · rename_i none'
      simp_all
    · simp at same
  · split at same
    · simp at same
    · rename_i some some'
      simp only [List.cons.injEq, true_and] at same
      have columns : width diff.hunks = width diff'.hunks := by
        cases first : diff.hunks with
        | nil => simp [first] at some
        | cons hunk rest =>
          cases first' : diff'.hunks with
          | nil => simp [first'] at some'
          | cons hunk' rest' =>
            rw [first, first'] at same
            simp only [List.flatMap_cons, hunkLines, List.cons_append, List.cons.injEq,
              true_and] at same
            have lengths := congrArg List.length same.1
            rw [length_header three_le_width, length_header three_le_width] at lengths
            omega
      rw [columns] at same
      exact hunkLines_injective (fun hunk held row mem => columns ▸ fits_width held mem)
        (fun hunk held row mem => fits_width held mem) same

/-- The lines up to the last one that opens, and the lines from there on. -/
theorem append_of_opens {front front' back back' : List (List Char)} {first first' : List Char}
    (opened : opens first = true) (opened' : opens first' = true)
    (others : ∀ line ∈ back, opens line = false) (others' : ∀ line ∈ back', opens line = false)
    (same : front ++ first :: back = front' ++ first' :: back') :
    front = front' ∧ first :: back = first' :: back' := by
  rcases List.append_eq_append_iff.mp same with ⟨more, front', back⟩ | ⟨more, front, back'⟩
  · cases more with
    | nil => exact ⟨by simpa using front'.symm, by simpa using back⟩
    | cons line more =>
      obtain ⟨rfl, rfl⟩ := List.cons.inj back
      exact absurd (others first' (by simp)) (by simp [opened'])
  · cases more with
    | nil => exact ⟨by simpa using front, by simpa using back'.symm⟩
    | cons line more =>
      obtain ⟨rfl, rfl⟩ := List.cons.inj back'
      exact absurd (others' first (by simp)) (by simp [opened])

/-- A text tells the name, the rows and every number they show. -/
theorem display_injective (clean : diff.OfLines) (clean' : diff'.OfLines)
    (same : diff.display = diff'.display) : diff.shown = diff'.shown := by
  have split : ∀ diff : FileDiff, diff.OfLines →
      diff.display.splitOn '\n' = (diff.name ++ title).splitOn '\n' ++ diff.body ++ [[]] := by
    intro diff clean
    rw [display, List.splitOn_append_cons_self, splitOn_closeAll (newline_notMem_body clean),
      List.append_assoc]
  have lines := congrArg (List.splitOn '\n') same
  rw [split diff clean, split diff' clean', List.append_left_inj] at lines
  obtain ⟨first, rest, body, opened, others⟩ := diff.body_spec
  obtain ⟨first', rest', body', opened', others'⟩ := diff'.body_spec
  rw [body, body'] at lines
  obtain ⟨names, bodies⟩ := append_of_opens opened opened' others others' lines
  have named := congrArg (List.intercalate ['\n']) names
  rw [List.intercalate_splitOn, List.intercalate_splitOn, List.append_left_inj] at named
  rw [← body, ← body'] at bodies
  rw [shown, shown, named, body_injective bodies]

end FileDiff

end ProgressiveReviewer.Unreviewed
