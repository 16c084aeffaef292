import ProgressiveReviewer.Library.EditScript
import ProgressiveReviewer.Library.Words
import Mathlib.Algebra.Ring.Nat
import Mathlib.Data.List.Infix
import Mathlib.Data.List.MinMax

/-! The reader's place in one diff document: the cursor and the part of the document on screen
(`diff-position/src/lib.rs`). -/

namespace ProgressiveReviewer.Screen

open Library

/-- Where the reader is in one document: the cursor's document row and byte column, and the first
visual row on screen. -/
structure Position where
  cursor : Nat
  column : Nat
  scroll : Nat
  deriving DecidableEq, Repr

/-- How one document fills the screen. -/
structure Layout where
  rowCount : Nat
  /-- Visual row that shows the cursor of a position. -/
  cursorRow : Position → Nat
  /-- Document row and byte column of the source row within `rows` nearest to the cursor. -/
  nearestCursor : Position → Extent → Option (Nat × Nat)
  fits : rowCount ≤ Words.maxWord
  cursor_lt : ∀ position, cursorRow position < rowCount
  /-- Scrolling moves no row of the document. -/
  still : ∀ position scroll, cursorRow { position with scroll } = cursorRow position

/-- Top row of the last full screen. -/
def Layout.lastTop (layout : Layout) (height : Nat) : Nat := layout.rowCount - height

namespace Position

variable (self : Position) (layout : Layout) (height : Nat)

/-- First visual row on screen in a document of some visual rows. -/
def top (rowCount : Nat) : Nat := min self.scroll (rowCount - 1)

/-- Scroll as little as possible to show the cursor; nothing when its row leaves the word. -/
def keepCursorVisible : Option Position :=
  let scroll := min self.scroll (layout.lastTop height)
  let cursor := layout.cursorRow self
  if cursor < scroll then some { self with scroll := cursor }
  else if Words.saturatingAdd scroll height ≤ cursor then do
    let below ← Words.add cursor 1
    let scroll ← Words.sub below height
    some { self with scroll }
  else some { self with scroll }

/-- The visual rows on screen. -/
def visible : Extent :=
  let top := self.top layout.rowCount
  ⟨top, min (Words.saturatingAdd top height) layout.rowCount⟩

/-- Move an off-screen cursor to the nearest source row on screen, and whether the cursor moved. -/
def containCursor : Position × Bool :=
  if (self.visible layout height).holds (layout.cursorRow self) then (self, false)
  else match layout.nearestCursor self (self.visible layout height) with
    | none => (self, false)
    | some (cursor, column) => ({ self with cursor, column }, true)

/-- Scroll by some visual rows and bring the cursor along when it left the screen. -/
def scrollBy (delta : Int) : Position × Bool :=
  let scroll := min (Words.saturatingAddSigned self.scroll delta) (layout.lastTop height)
  { self with scroll }.containCursor layout height

inductive Move where
  | scrollBy (delta : Int)
  | keepCursorVisible
  | containCursor
  deriving DecidableEq, Repr

def move : Move → Option Position
  | .scrollBy delta => some (self.scrollBy layout height delta).1
  | .keepCursorVisible => self.keepCursorVisible layout height
  | .containCursor => some (self.containCursor layout height).1

def run (moves : List Move) : Option Position :=
  moves.foldlM (fun position => position.move layout height) self

/-- The cursor's row is on a screen that starts at a row. -/
def ShownFrom (scroll : Nat) : Prop :=
  scroll ≤ layout.cursorRow self ∧ layout.cursorRow self < scroll + height

def OnScreen : Prop := self.ShownFrom layout height self.scroll

instance (scroll : Nat) : Decidable (self.ShownFrom layout height scroll) := instDecidableAnd

instance : Decidable (self.OnScreen layout height) := instDecidableAnd

/-- How far the screen moves from one row to another. -/
def travel (a b : Nat) : Nat := a - b + (b - a)

end Position

/-- A layout that names only places whose row is among the rows asked for. -/
def Layout.Names (layout : Layout) : Prop :=
  ∀ position rows cursor column, layout.nearestCursor position rows = some (cursor, column) →
    rows.holds (layout.cursorRow { position with cursor, column })

namespace Position

section Spec

variable (self : Position) (layout : Layout) {height : Nat}

theorem lt_lastTop_add (height : Nat) :
    layout.cursorRow self < layout.lastTop height + height := by
  have := layout.cursor_lt self
  rw [Layout.lastTop]
  omega

/-- The cursor comes on screen; the screen stops before the last top row and moves as little as it
can. -/
theorem keepCursorVisible_spec (pos : 0 < height) :
    ∃ scroll, self.keepCursorVisible layout height = some { self with scroll } ∧
      scroll ≤ layout.lastTop height ∧ self.ShownFrom layout height scroll ∧
      ∀ other, self.ShownFrom layout height other →
        self.scroll ≤ layout.lastTop height ∨ other ≤ layout.lastTop height →
        travel self.scroll scroll ≤ travel self.scroll other := by
  have reach := self.lt_lastTop_add layout height
  have bound := layout.cursor_lt self
  have word := layout.fits
  unfold ShownFrom travel
  unfold keepCursorVisible
  dsimp only
  split_ifs with above below
  · refine ⟨_, rfl, ?_, ⟨Nat.le_refl _, by omega⟩, fun other shown valid => ?_⟩
    · omega
    · omega
  · have off : min self.scroll (layout.lastTop height) + height ≤ layout.cursorRow self :=
      Nat.not_lt.mp fun inside => Nat.not_lt.mpr below
        ((Words.lt_saturatingAdd (Nat.lt_of_lt_of_le bound word)).mpr inside)
    have next : Words.add (layout.cursorRow self) 1 = some (layout.cursorRow self + 1) :=
      Words.add_eq (Nat.le_trans bound word)
    have start : Words.sub (layout.cursorRow self + 1) height =
        some (layout.cursorRow self + 1 - height) := Words.sub_eq (by omega)
    rw [next, Option.bind_eq_bind, Option.bind_some, start]
    refine ⟨_, rfl, ?_, ⟨by omega, by omega⟩, fun other shown valid => ?_⟩
    · rw [Layout.lastTop]
      omega
    · omega
  · have inside := (Words.lt_saturatingAdd (Nat.lt_of_lt_of_le bound word)).mp (Nat.not_le.mp below)
    refine ⟨_, rfl, Nat.min_le_right _ _, ⟨Nat.not_lt.mp above, inside⟩, fun other shown valid => ?_⟩
    omega

variable {self layout}

theorem visible_eq (placed : self.scroll ≤ layout.lastTop height) (pos : 0 < height) (row : Nat)
    (bound : row < layout.rowCount) : (self.visible layout height).holds row = true ↔
      self.scroll ≤ row ∧ row < self.scroll + height := by
  have word := layout.fits
  have top : self.top layout.rowCount = self.scroll := by
    rw [Layout.lastTop] at placed
    exact min_eq_left (by omega)
  rw [Extent.holds_iff, visible, top]
  dsimp only
  rw [Nat.lt_min, Words.lt_saturatingAdd (Nat.lt_of_lt_of_le bound word), and_iff_left bound]

/-- The screen stays, and shows the cursor unless no source row on it can take the cursor. -/
theorem containCursor_spec (names : layout.Names) (pos : 0 < height)
    (placed : self.scroll ≤ layout.lastTop height) :
    (self.containCursor layout height).1.scroll = self.scroll ∧
      ((self.containCursor layout height).1.OnScreen layout height ∨
        (self.containCursor layout height).1 = self ∧
          layout.nearestCursor self (self.visible layout height) = none) := by
  rw [containCursor]
  split_ifs with inside
  · exact ⟨rfl, Or.inl ((visible_eq placed pos _ (layout.cursor_lt self)).mp inside)⟩
  · cases found : layout.nearestCursor self (self.visible layout height) with
    | none => exact ⟨rfl, Or.inr ⟨rfl, rfl⟩⟩
    | some place =>
      obtain ⟨cursor, column⟩ := place
      have held := names self _ cursor column found
      exact ⟨rfl, Or.inl ((visible_eq placed pos _ (layout.cursor_lt _)).mp held)⟩

variable (self layout)

theorem containCursor_scroll : (self.containCursor layout height).1.scroll = self.scroll := by
  rw [containCursor]
  split_ifs
  · rfl
  · cases layout.nearestCursor self (self.visible layout height) <;> rfl

/-- Every move has a result, and all but one bring the screen before the last top row. -/
theorem move_placed (pos : 0 < height) (move : Move) :
    ∃ next, self.move layout height move = some next ∧
      (self.scroll ≤ layout.lastTop height ∨ move ≠ .containCursor →
        next.scroll ≤ layout.lastTop height) := by
  cases move with
  | scrollBy delta =>
    exact ⟨_, rfl, fun _ => (containCursor_scroll _ layout).trans_le (Nat.min_le_right _ _)⟩
  | keepCursorVisible =>
    obtain ⟨scroll, moved, placed, -⟩ := self.keepCursorVisible_spec layout pos
    exact ⟨_, moved, fun _ => placed⟩
  | containCursor =>
    refine ⟨_, rfl, fun placed => (self.containCursor_scroll layout).trans_le ?_⟩
    exact placed.resolve_right (not_not.mpr rfl)

theorem run_placed (pos : 0 < height) (moves : List Move) :
    ∃ next, self.run layout height moves = some next ∧
      (self.scroll ≤ layout.lastTop height ∨ (∃ move ∈ moves, move ≠ .containCursor) →
        next.scroll ≤ layout.lastTop height) := by
  induction moves generalizing self with
  | nil => exact ⟨self, rfl, fun placed => placed.resolve_right (by simp)⟩
  | cons move moves ih =>
    obtain ⟨next, moved, placed⟩ := self.move_placed layout pos move
    obtain ⟨last, ran, placed'⟩ := ih next
    refine ⟨last, ?_, fun start => placed' ?_⟩
    · rw [run, List.foldlM_cons, moved]
      exact ran
    · rw [List.exists_mem_cons_iff, ← or_assoc] at start
      exact start.imp_left placed

/-- After any moves from a screen before the last top row, or after one that brought it there: the
screen starts before the last top row; the cursor is kept visible with the least move; and it is
contained unless no source row on screen can take it. -/
theorem run_contained (names : layout.Names) (pos : 0 < height)
    (moves : List Move)
    (placed : self.scroll ≤ layout.lastTop height ∨ ∃ move ∈ moves, move ≠ .containCursor) :
    ∃ position, self.run layout height moves = some position ∧
      position.scroll ≤ layout.lastTop height ∧
      (∃ scroll, position.keepCursorVisible layout height = some { position with scroll } ∧
        scroll ≤ layout.lastTop height ∧ { position with scroll }.OnScreen layout height ∧
        ∀ other, position.ShownFrom layout height other →
          travel position.scroll scroll ≤ travel position.scroll other) ∧
      (position.containCursor layout height).1.scroll = position.scroll ∧
      ((position.containCursor layout height).1.OnScreen layout height ∨
        (position.containCursor layout height).1 = position ∧
          layout.nearestCursor position (position.visible layout height) = none) := by
  obtain ⟨position, ran, reached⟩ := self.run_placed layout pos moves
  have placed := reached placed
  obtain ⟨scroll, kept, before, shown, least⟩ :=
    position.keepCursorVisible_spec layout pos
  refine ⟨position, ran, placed, ⟨scroll, kept, before, ?_, fun other from_ => ?_⟩,
    containCursor_spec names pos placed⟩
  · rw [ShownFrom, ← layout.still position scroll] at shown
    exact shown
  · exact least other from_ (Or.inl placed)

end Spec

end Position

end ProgressiveReviewer.Screen

/-! One document laid out on screen, as its position sees it (`components/diff/src/render.rs`). The
parts of a line that a reader sees as one character come from outside: how many bytes and how many
columns each takes. -/

namespace ProgressiveReviewer.Screen

open Library

structure Grapheme where
  bytes : Nat
  width : Nat
  some_ : 0 < bytes
  deriving DecidableEq

/-- The characters of a line and where their bytes start. -/
def graphemeIndices : Nat → List Grapheme → List (Nat × Grapheme)
  | _, [] => []
  | byte, grapheme :: line => (byte, grapheme) :: graphemeIndices (byte + grapheme.bytes) line

def displayWidth (line : List Grapheme) : Nat := (line.map (·.width)).sum

def byteLen (line : List Grapheme) : Nat := (line.map (·.bytes)).sum

/-- The columns of the characters that end by a byte. -/
def sourceDisplayWidth (indices : List (Nat × Grapheme)) (byteColumn : Nat) : Nat :=
  displayWidth ((indices.takeWhile fun (byte, grapheme) =>
    byte + grapheme.bytes ≤ byteColumn).map (·.2))

/-- Where the character of a column starts, of characters that start at a column. -/
def displayColumnToByte (displayColumn len : Nat) : Nat → List (Nat × Grapheme) → Nat
  | _, [] => len
  | display, (byte, grapheme) :: indices =>
    if displayColumn < display + grapheme.width then byte
    else displayColumnToByte displayColumn len (display + grapheme.width) indices

/-- A visual row. -/
structure WrappedDiffRow where
  sourceRow : Nat
  sourceDisplayOffset : Nat
  isSourceRow : Bool
  deriving DecidableEq, Repr

/-- Whether the next visual row goes on with the same document row. -/
def WrappedDiffRow.goesOn (row next : WrappedDiffRow) : Bool :=
  next.isSourceRow && next.sourceRow = row.sourceRow

structure DocumentRows where
  rows : List WrappedDiffRow
  /-- The line of a document row that has a place in the current file. -/
  line : Nat → Option (List Grapheme)

/-- The last item that passes a test. -/
def lastIdx {α : Type} (test : α → Bool) : List α → Option Nat
  | [] => none
  | item :: items =>
    match lastIdx test items with
    | some index => some (index + 1)
    | none => if test item then some 0 else none

namespace DocumentRows

variable (self : DocumentRows)

def byteToColumn (row byteColumn : Nat) : Nat :=
  ((self.line row).map fun line => sourceDisplayWidth (graphemeIndices 0 line) byteColumn).getD 0

def columnToByte (row displayColumn : Nat) : Nat :=
  ((self.line row).map fun line =>
    displayColumnToByte displayColumn (byteLen line) 0 (graphemeIndices 0 line)).getD 0

def cursorDisplayColumn (position : Position) : Nat := self.byteToColumn position.cursor position.column

def cursorVisualRow (position : Position) : Nat :=
  let sourceDisplayColumn := self.cursorDisplayColumn position
  ((lastIdx (fun row => row.isSourceRow && row.sourceRow = position.cursor &&
      row.sourceDisplayOffset ≤ sourceDisplayColumn) self.rows).or
    (self.rows.findIdx? fun row => row.sourceRow = position.cursor)).getD 0

def columnOnRow (position : Position) (cursor target : Nat) (row : WrappedDiffRow) : Nat :=
  let offset := (self.rows[cursor]?.map (·.sourceDisplayOffset)).getD 0
  let column := self.cursorDisplayColumn position - offset
  let «end» := match self.rows[target + 1]?.filter row.goesOn with
    | some next => next.sourceDisplayOffset
    | none => ((self.line row.sourceRow).map fun line =>
        sourceDisplayWidth (graphemeIndices 0 line) (byteLen line)).getD 0
  max (min (row.sourceDisplayOffset + column) («end» - 1)) row.sourceDisplayOffset

def nearestCursor (position : Position) (rows : Extent) : Option (Nat × Nat) := do
  let cursor := self.cursorVisualRow position
  let target ← (rows.positions.filter fun index =>
    self.rows[index]?.any (·.isSourceRow)).argmin (Position.travel cursor)
  let row ← self.rows[target]?
  let displayColumn := self.columnOnRow position cursor target row
  some (row.sourceRow, self.columnToByte row.sourceRow displayColumn)

end DocumentRows

/-- Rows as lines wrap: each document row on visual rows of its own, one after another, that start
at characters of its line; a row without a line takes one. -/
structure DocumentRows.Fitted (document : DocumentRows) : Prop where
  starts : ∀ row ∈ document.rows, row.isSourceRow = true →
    ∃ ahead ∈ ((document.line row.sourceRow).getD []).inits, row.sourceDisplayOffset = displayWidth ahead
  ordered : document.rows.Pairwise fun row later => row.isSourceRow = true → row.goesOn later = true →
    (document.line row.sourceRow).isSome ∧ row.sourceDisplayOffset < later.sourceDisplayOffset
  together : ∀ target < document.rows.length, ∀ later < document.rows.length, target < later →
    ∀ row ∈ document.rows[target]?, row.isSourceRow = true → document.rows[later]?.any row.goesOn = true →
      document.rows[target + 1]?.any row.goesOn = true

/-! A column and the byte of its character. -/

section Columns

/-- The character of a column starts no later than the column, and not before another character
that does. -/
theorem column_byte {displayColumn len : Nat} (line : List Grapheme) (byte display : Nat)
    (within : display ≤ displayColumn) (ends : byte + byteLen line = len) :
    let indices := graphemeIndices byte line
    let start := displayColumnToByte displayColumn len display indices
    byte ≤ start ∧ display + sourceDisplayWidth indices start ≤ displayColumn ∧
      ∀ ahead ∈ line.inits, display + displayWidth ahead ≤ displayColumn →
        displayWidth ahead ≤ sourceDisplayWidth indices start := by
  induction line generalizing byte display with
  | nil =>
    refine ⟨Nat.le.intro ends, within, fun ahead mem _ => ?_⟩
    obtain rfl : ahead = [] := by simpa using mem
    exact Nat.le_refl _
  | cons grapheme line ih =>
    intro indices start
    have positive := grapheme.some_
    have size : byteLen (grapheme :: line) = grapheme.bytes + byteLen line := List.sum_cons
    have wide : ∀ rest, displayWidth (grapheme :: rest) = grapheme.width + displayWidth rest :=
      fun rest => List.sum_cons
    by_cases here : displayColumn < display + grapheme.width
    · have same : start = byte := if_pos here
      have none_ : sourceDisplayWidth indices start = 0 := by
        rw [same, sourceDisplayWidth, show indices = (byte, grapheme) ::
          graphemeIndices (byte + grapheme.bytes) line from rfl,
          List.takeWhile_cons_of_neg (by simp; omega)]
        rfl
      rw [none_]
      refine ⟨same.ge, within, fun ahead mem reach => ?_⟩
      cases ahead with
      | nil => exact Nat.le_refl _
      | cons first rest =>
        obtain ⟨rfl, -⟩ := List.cons_prefix_cons.mp ((List.mem_inits _ _).mp mem)
        rw [wide] at reach
        omega
    · have same : start = displayColumnToByte displayColumn len (display + grapheme.width)
          (graphemeIndices (byte + grapheme.bytes) line) := if_neg here
      obtain ⟨later, reach, most⟩ := ih (byte + grapheme.bytes) (display + grapheme.width)
        (Nat.not_lt.mp here) (by rw [← ends, size, Nat.add_assoc])
      rw [← same] at later reach most
      have more : sourceDisplayWidth indices start = grapheme.width +
          sourceDisplayWidth (graphemeIndices (byte + grapheme.bytes) line) start := by
        rw [sourceDisplayWidth, show indices = (byte, grapheme) ::
          graphemeIndices (byte + grapheme.bytes) line from rfl,
          List.takeWhile_cons_of_pos (by simpa using later), List.map_cons, wide]
        rfl
      rw [more]
      refine ⟨by omega, by omega, fun ahead mem within => ?_⟩
      cases ahead with
      | nil => exact Nat.zero_le _
      | cons first rest =>
        obtain ⟨rfl, leads⟩ := List.cons_prefix_cons.mp ((List.mem_inits _ _).mp mem)
        rw [wide] at within ⊢
        exact Nat.add_le_add_left (most rest ((List.mem_inits _ _).mpr leads) (by omega)) _

end Columns

theorem lastIdx_eq {α : Type} {test : α → Bool} {items : List α} {index : Nat}
    (found : items[index]?.any test = true)
    (last : ∀ later, index < later → items[later]?.any test = false) :
    lastIdx test items = some index := by
  induction items generalizing index with
  | nil => cases found
  | cons item items ih =>
    cases index with
    | zero =>
      have none_ : lastIdx test items = none := by
        have rest : ∀ later, items[later]?.any test = false := fun later => last (later + 1) (by simp)
        clear ih last found
        induction items with
        | nil => rfl
        | cons first items ih =>
          have own := rest 0
          rw [lastIdx, ih fun later => rest (later + 1)]
          exact if_neg (by simpa using own)
      rw [lastIdx, none_]
      exact if_pos found
    | succ index =>
      rw [lastIdx, ih found fun later less => last (later + 1) (Nat.succ_lt_succ less)]

namespace DocumentRows

variable {self : DocumentRows}

theorem cursorVisualRow_lt (some_ : self.rows ≠ []) (position : Position) :
    self.cursorVisualRow position < self.rows.length := by
  have pos := List.length_pos_of_ne_nil some_
  have last : ∀ {test : WrappedDiffRow → Bool} {rows : List WrappedDiffRow} {index : Nat},
      lastIdx test rows = some index → index < rows.length := by
    intro test rows
    induction rows with
    | nil => exact fun none_ => nomatch none_
    | cons row rows ih =>
      intro index found
      rw [lastIdx] at found
      split at found
      · next found' =>
        cases found
        exact Nat.succ_lt_succ (ih found')
      · split_ifs at found
        cases found
        exact Nat.succ_pos _
  rw [cursorVisualRow]
  cases found : lastIdx _ self.rows with
  | some index => exact last found
  | none =>
    cases found' : self.rows.findIdx? _ with
    | some index => exact (List.findIdx?_eq_some_iff_getElem.mp found').1
    | none => exact pos

/-- The cursor on a visual row of its document row is shown there, unless a later one starts by its
column. -/
theorem cursorVisualRow_eq {position : Position} {target : Nat} {row : WrappedDiffRow}
    (found : self.rows[target]? = some row) (source : row.isSourceRow = true)
    (same : position.cursor = row.sourceRow)
    (reach : row.sourceDisplayOffset ≤ self.cursorDisplayColumn position)
    (last : ∀ later other, target < later → self.rows[later]? = some other → row.goesOn other = true →
      self.cursorDisplayColumn position < other.sourceDisplayOffset) :
    self.cursorVisualRow position = target := by
  have shown : lastIdx (fun row => row.isSourceRow && row.sourceRow = position.cursor &&
      row.sourceDisplayOffset ≤ self.cursorDisplayColumn position) self.rows = some target := by
    refine lastIdx_eq ?_ fun later less => ?_
    · rw [found]
      simp [source, same, reach]
    cases at_ : self.rows[later]? with
    | none => rfl
    | some other =>
      refine Bool.eq_false_iff.mpr fun passes => ?_
      simp only [Option.any_some, Bool.and_eq_true, decide_eq_true_eq] at passes
      obtain ⟨⟨own, equal⟩, behind⟩ := passes
      have goes : row.goesOn other = true := by simp [WrappedDiffRow.goesOn, own, equal, same]
      exact absurd (last later other less at_ goes) (Nat.not_lt.mpr behind)
  rw [cursorVisualRow, shown]
  rfl

theorem columnOnRow_ge (self : DocumentRows) (position : Position) (cursor target : Nat) (row : WrappedDiffRow) :
    row.sourceDisplayOffset ≤ self.columnOnRow position cursor target row := by
  rw [columnOnRow]
  exact Nat.le_max_right _ _

/-- A column asked for on a visual row lies ahead of the next one of the same document row. -/
theorem columnOnRow_lt (position : Position) (cursor : Nat) {target : Nat} {row next : WrappedDiffRow}
    (follows : self.rows[target + 1]? = some next) (goes : row.goesOn next = true)
    (less : row.sourceDisplayOffset < next.sourceDisplayOffset) :
    self.columnOnRow position cursor target row < next.sourceDisplayOffset := by
  rw [columnOnRow, follows, Option.filter_some_pos goes]
  dsimp only
  omega

section Fitted

variable (fitted : self.Fitted) {target later : Nat} {row other : WrappedDiffRow}
  (here : self.rows[target]? = some row) (source : row.isSourceRow = true)
include fitted here source

theorem Fitted.lt (behind : target < later) (at_ : self.rows[later]? = some other)
    (goes : row.goesOn other = true) : row.sourceDisplayOffset < other.sourceDisplayOffset := by
  obtain ⟨bound, rfl⟩ := List.getElem?_eq_some_iff.mp here
  obtain ⟨bound', rfl⟩ := List.getElem?_eq_some_iff.mp at_
  exact (List.pairwise_iff_getElem.mp fitted.ordered target later bound bound' behind source goes).2

/-- A later row of the same document row starts no earlier than the next one. -/
theorem Fitted.next (behind : target < later) (at_ : self.rows[later]? = some other)
    (goes : row.goesOn other = true) : ∃ next, self.rows[target + 1]? = some next ∧
      row.goesOn next = true ∧ next.sourceDisplayOffset ≤ other.sourceDisplayOffset := by
  have bound := (List.getElem?_eq_some_iff.mp here).1
  have bound' := (List.getElem?_eq_some_iff.mp at_).1
  have together := fitted.together target bound later bound' behind row here source
    (by rw [at_]; exact goes)
  cases follows : self.rows[target + 1]? with
  | none =>
    rw [follows] at together
    cases together
  | some next =>
    rw [follows, Option.any_some] at together
    refine ⟨next, rfl, together, ?_⟩
    rcases Nat.eq_or_lt_of_le (Nat.succ_le_of_lt behind) with rfl | less
    · exact (Option.some.inj (follows.symm.trans at_) ▸ Nat.le_refl _)
    · simp only [WrappedDiffRow.goesOn, Bool.and_eq_true, decide_eq_true_eq] at together goes
      refine Nat.le_of_lt (fitted.lt follows together.1 less at_ ?_)
      simp [WrappedDiffRow.goesOn, goes.1, goes.2, together.2]

end Fitted

/-- The column that a place on a document row is asked for comes back as one that its visual row
holds. -/
theorem column_on_row (fitted : self.Fitted) {row : WrappedDiffRow} (mem : row ∈ self.rows)
    (source : row.isSourceRow = true) {displayColumn : Nat}
    (within : row.sourceDisplayOffset ≤ displayColumn) :
    let column := self.byteToColumn row.sourceRow (self.columnToByte row.sourceRow displayColumn)
    row.sourceDisplayOffset ≤ column ∧ column ≤ displayColumn := by
  obtain ⟨ahead, leads, offset⟩ := fitted.starts row mem source
  rw [byteToColumn, columnToByte]
  cases text : self.line row.sourceRow with
  | none =>
    rw [text] at leads
    obtain rfl : ahead = [] := by simpa using leads
    exact ⟨offset.le, Nat.zero_le _⟩
  | some line =>
    rw [text] at leads
    obtain ⟨-, reach, most⟩ := column_byte line 0 0 (Nat.zero_le displayColumn) (Nat.zero_add _)
    rw [Nat.zero_add] at reach
    refine ⟨offset.trans_le (most ahead leads ?_), reach⟩
    rw [Nat.zero_add, ← offset]
    exact within

/-- The place nearest to the cursor is shown on the visual row it was taken from. -/
theorem nearestCursor_row (fitted : self.Fitted) {position : Position} {rows : Extent}
    {cursor column : Nat} (found : self.nearestCursor position rows = some (cursor, column)) :
    rows.holds (self.cursorVisualRow { position with cursor, column }) = true := by
  rw [nearestCursor] at found
  obtain ⟨target, nearest, found⟩ := Option.bind_eq_some_iff.mp found
  obtain ⟨row, here, found⟩ := Option.bind_eq_some_iff.mp found
  obtain ⟨inside, source⟩ := List.mem_filter.mp (List.argmin_mem nearest)
  rw [here, Option.any_some] at source
  cases found
  have mem := List.mem_of_getElem? here
  obtain ⟨reach, within⟩ := column_on_row fitted mem source
    (self.columnOnRow_ge position (self.cursorVisualRow position) target row)
  rw [cursorVisualRow_eq here source rfl]
  · rw [Extent.holds_iff, ← Extent.mem_positions]
    exact inside
  · exact reach
  · intro later other less at_ goes
    obtain ⟨next, follows, nextGoes, far⟩ := fitted.next here source less at_ goes
    exact Nat.lt_of_le_of_lt within (Nat.lt_of_lt_of_le
      (columnOnRow_lt position _ follows nextGoes (fitted.lt here source (Nat.lt_succ_self _) follows nextGoes)) far)

/-- The layout of a document that shows a row. -/
def layout (self : DocumentRows) (some_ : self.rows ≠ [])
    (fits : self.rows.length ≤ Words.maxWord) : Layout where
  rowCount := self.rows.length
  cursorRow := self.cursorVisualRow
  nearestCursor := self.nearestCursor
  fits
  cursor_lt := cursorVisualRow_lt some_
  still _ _ := rfl

theorem names_layout (fitted : self.Fitted) (some_ : self.rows ≠ [])
    (fits : self.rows.length ≤ Words.maxWord) : (self.layout some_ fits).Names :=
  fun _ _ _ _ found => nearestCursor_row fitted found

end DocumentRows

/-- A line of some characters of one byte and one column. -/
def plainLine (size : Nat) : List Grapheme := List.replicate size ⟨1, 1, Nat.one_pos⟩

/-- A wrapped line, a removed one, a comment of three rows and two more lines. -/
def commented : DocumentRows where
  rows := [⟨0, 0, true⟩, ⟨0, 4, true⟩, ⟨1, 0, true⟩, ⟨1, 0, false⟩, ⟨1, 0, false⟩, ⟨1, 0, false⟩,
    ⟨2, 0, true⟩, ⟨3, 0, true⟩]
  line row := if row = 1 then none else some (plainLine (if row = 0 then 6 else 3))

def commentedLayout : Layout := commented.layout (by decide) (by decide)

theorem commented_fitted : commented.Fitted := ⟨by decide, by decide, by decide⟩

namespace Position

theorem run_contained_commented : 0 < 3 ∧ ∃ position,
    run ⟨0, 5, 0⟩ commentedLayout 3 [.scrollBy 1, .containCursor] = some position ∧
      position.scroll ≤ 5 := by
  obtain ⟨position, ran, placed, -⟩ := run_contained ⟨0, 5, 0⟩ commentedLayout
    (DocumentRows.names_layout commented_fitted (by decide) (by decide)) (Nat.succ_pos 2)
    [.scrollBy 1, .containCursor] (Or.inl (Nat.zero_le _))
  exact ⟨by decide, position, ran, placed⟩

/-- A screen that shows comments only cannot take the cursor, and one past the last top row stays
there. -/
theorem contained_nowhere :
    (∃ position, run ⟨0, 0, 0⟩ commentedLayout 3 [.scrollBy 3] = some position ∧
      ¬(position.containCursor commentedLayout 3).1.OnScreen commentedLayout 3) ∧
    ¬((⟨0, 0, 7⟩ : Position).containCursor commentedLayout 3).1.scroll ≤
      commentedLayout.lastTop 3 :=
  ⟨⟨⟨0, 0, 3⟩, by decide, by decide⟩, by decide⟩

end Position

end ProgressiveReviewer.Screen
