import ProgressiveReviewer.Hunks.Classify
import ProgressiveReviewer.Library.Tiling

/-! Visible rows derived from a parsed unified diff (`diff/src/presentation.rs` and
`presentation/hunks.rs`, with the files of `syntax-highlighting/src/lib.rs`). The tokens of a line
come from the highlighter and are only passed on. -/

namespace ProgressiveReviewer.Presentation

open Library Hunks

variable {τ : Type}

/-- One diff row and its syntax-colored code. -/
structure HighlightedRow (τ : Type) where
  diff : DiffRow
  tokens : τ
  deriving DecidableEq, Repr

inductive HighlightedFile (τ : Type) where
  | afterChange (lines : List τ)
  | beforeChange (lines : List τ)
  deriving DecidableEq, Repr

namespace HighlightedFile

def afterChangeLines : HighlightedFile τ → Option (List τ)
  | .afterChange lines => some lines
  | .beforeChange _ => none

def intoLines : HighlightedFile τ → List τ
  | .afterChange lines | .beforeChange lines => lines

end HighlightedFile

structure HighlightedDiff (τ : Type) where
  rows : List (HighlightedRow τ)
  file : Option (HighlightedFile τ)
  deriving DecidableEq, Repr

/-- Tokens of rows whose line no file holds. -/
structure Painter (τ : Type) where
  diffLine : String → τ
  plain : DiffRow → τ
  nothing : τ

def lineTokens (lines : Option (List τ)) (line : Nat) : Option τ :=
  if line = 0 then none else lines.bind (·[line - 1]?)

def rowTokens (painter : Painter τ) (old new : Option (List τ)) : DiffRow → τ
  | .context _ newLine text | .add newLine text =>
    (lineTokens new newLine).getD (painter.diffLine text)
  | .delete oldLine text => (lineTokens old oldLine).getD (painter.diffLine text)
  | _ => painter.nothing

/-- The rows of a diff with the tokens of their lines in both files. -/
def assemble (painter : Painter τ) (rows : List DiffRow) (old new : Option (List τ))
    (hasNewContent : Bool) : HighlightedDiff τ where
  rows := rows.map fun diff => ⟨diff, rowTokens painter old new diff⟩
  file := if hasNewContent then new.map .afterChange else old.map .beforeChange

inductive PresentedRow (τ : Type) where
  | diff (source : Nat) (tokens : τ)
  | gap (start : Nat) (lines : List τ)
  | expanded (line : Nat) (tokens : τ)
  /-- A reviewed hunk folded into one row. -/
  | reviewedHunk (hunk : Nat)
  /-- One row of an expanded reviewed hunk, read-only. -/
  | reviewedLine (hunk row : Nat) (newLine : Option Nat) (tokens : τ)
  deriving DecidableEq, Repr

inductive WholeFile where
  | added
  | deleted
  deriving DecidableEq, Repr

namespace WholeFile

def ofRow : DiffRow → Option WholeFile
  | .metadata text =>
    if "new file mode ".toList.isPrefixOf text.toList then some .added
    else if "deleted file mode ".toList.isPrefixOf text.toList then some .deleted
    else none
  | _ => none

def detect (rows : List DiffRow) : Option WholeFile := rows.findSome? ofRow

def includes : WholeFile → DiffRow → Bool
  | .added, .add _ _ => true
  | .deleted, .delete _ _ => true
  | _, _ => false

end WholeFile

inductive PresentationView (τ : Type) where
  | diff
  | file (diffRows : List (PresentedRow τ))
  deriving DecidableEq, Repr

structure DiffPresentation (τ : Type) where
  source : List DiffRow
  rows : List (PresentedRow τ)
  wholeFile : Option WholeFile
  fileRows : Option (List (PresentedRow τ))
  view : PresentationView τ
  hunks : FileHunks
  deriving DecidableEq, Repr

/-- The visible rows so far. -/
structure PresentationRows (τ : Type) where
  source : List DiffRow
  rows : List (PresentedRow τ)
  wholeFile : Option WholeFile
  afterChangeLines : Option (List τ)
  previousHunkEnd : Option Nat
  deriving DecidableEq, Repr

/-- The lines from one number up to another, both counted from one. -/
def gapLines (lines : Option (List τ)) (start stop : Nat) : Option (List τ) :=
  if start = 0 ∨ stop = 0 then none
  else lines.bind fun lines =>
    if start - 1 ≤ stop - 1 ∧ stop - 1 ≤ lines.length then
      some (Extent.cut lines ⟨start - 1, stop - 1⟩)
    else none

namespace PresentationRows

variable (self : PresentationRows τ)

def pushGap (start stop : Nat) : PresentationRows τ :=
  if start < stop then
    match gapLines self.afterChangeLines start stop with
    | some lines => { self with rows := self.rows ++ [.gap start lines] }
    | none => self
  else self

def pushGapBefore : DiffRow → PresentationRows τ
  | .hunk _ _ newStart newCount =>
    { self.pushGap (self.previousHunkEnd.getD 1) newStart with
      previousHunkEnd := some (newStart + newCount) }
  | _ => self

def isVisible (diff : DiffRow) : Bool :=
  match self.wholeFile with
  | some wholeFile => wholeFile.includes diff
  | none => diff.isContent || diff.isNotice

def push (highlighted : HighlightedRow τ) : PresentationRows τ :=
  let visible := self.isVisible highlighted.diff
  let self := self.pushGapBefore highlighted.diff
  { self with
    source := self.source ++ [highlighted.diff]
    rows := if visible then self.rows ++ [.diff self.source.length highlighted.tokens]
      else self.rows }

/-- A diff without hunks has no unchanged sections. -/
def finish : PresentationRows τ :=
  match self.previousHunkEnd with
  | none => self
  | some start => match self.afterChangeLines with
    | none => self
    | some lines => self.pushGap start (lines.length + 1)

end PresentationRows

/-- A file's lines as rows, counted from one. -/
def fileRowsOf (lines : List τ) : List (PresentedRow τ) :=
  lines.zipIdx.map fun (tokens, index) => .expanded (index + 1) tokens

namespace DiffPresentation

def new (highlighted : HighlightedDiff τ) : DiffPresentation τ :=
  let wholeFile := WholeFile.detect (highlighted.rows.map (·.diff))
  let started : PresentationRows τ :=
    ⟨[], [], wholeFile, highlighted.file.bind (·.afterChangeLines), none⟩
  let presented := (highlighted.rows.foldl .push started).finish
  { source := presented.source
    rows := presented.rows
    wholeFile
    fileRows := highlighted.file.map fun file => fileRowsOf file.intoLines
    view := .diff
    hunks := ⟨[], []⟩ }

variable (self : DiffPresentation τ)

/-- The parts of an unchanged section outside `folded` lines, counted from one. -/
def splitGap (start : Nat) (lines : List τ) (folded : Range) : List (PresentedRow τ) :=
  let gapEnd := start + lines.length
  let clamp := fun line => max start (min line gapEnd)
  let back := lines.drop (clamp folded.stop - start)
  let front := (lines.take (clamp folded.stop - start)).take (clamp folded.start - start)
  (if front = [] then [] else [.gap start front]) ++
    if back = [] then [] else [.gap (clamp folded.stop) back]

/-- What folding lines leaves of a row. -/
def outside (folded : Range) : PresentedRow τ → List (PresentedRow τ)
  | .gap start lines => splitGap start lines folded
  | .diff index tokens => match self.source[index]? with
    | some (.context _ newLine _) =>
      if folded.holds newLine then [] else [.diff index tokens]
    | _ => [.diff index tokens]
  | row => [row]

def firstNewLine : PresentedRow τ → Option Nat
  | .diff index _ => match self.source[index]? with
    | some (.context _ newLine _) | some (.add newLine _) => some newLine
    | _ => none
  | .gap start _ => some start
  | .expanded line _ => some line
  | .reviewedHunk hunk | .reviewedLine hunk _ _ _ =>
    self.hunks.reviewed[hunk]?.map (·.span.new.start + 1)

/-- Replace the hunk's current lines, in unchanged sections or in an open hunk's context, with one
folded row. -/
def foldReviewed (hunk : Nat) (lines : Range) : DiffPresentation τ :=
  -- rows number lines from one
  let folded : Range := ⟨lines.start + 1, lines.stop + 1⟩
  let rows := self.rows.flatMap (self.outside folded)
  let index := (rows.findIdx? fun row =>
    (self.firstNewLine row).any (folded.start ≤ ·)).getD rows.length
  { self with rows := rows.insertIdx index (.reviewedHunk hunk) }

@[simp] theorem foldReviewed_source (hunk : Nat) (lines : Range) :
    (self.foldReviewed hunk lines).source = self.source := rfl

@[simp] theorem foldReviewed_hunks (hunk : Nat) (lines : Range) :
    (self.foldReviewed hunk lines).hunks = self.hunks := rfl

/-- Fold each reviewed hunk into one row at its place in the current file. -/
def withHunks (hunks : FileHunks) : DiffPresentation τ :=
  hunks.reviewed.zipIdx.reverse.foldl
    (fun self (hunk, index) => self.foldReviewed index hunk.span.new) { self with hunks }

/-! Expanding and contracting. -/

def expandedLines (start : Nat) (lines : List τ) : List (PresentedRow τ) :=
  lines.zipIdx.map fun (tokens, offset) => .expanded (start + offset) tokens

/-- Show the lines of an unchanged section; nothing when there is none at the row. -/
def expandGap (index : Nat) : Option (DiffPresentation τ) :=
  match self.rows[index]? with
  | some (.gap start lines) =>
    some { self with
      rows := self.rows.take index ++ expandedLines start lines ++ self.rows.drop (index + 1) }
  | _ => none

def fileLineTokens (line : Nat) : Option τ :=
  self.fileRows.bind fun rows => rows.findSome? fun row =>
    match row with
    | .expanded number tokens => if number = line then some tokens else none
    | _ => none

/-- The current line that a row of a reviewed hunk shows. -/
def newLineOf : DiffRow → Option Nat
  | .context _ newLine _ | .add newLine _ => some newLine
  | _ => none

def reviewedLines (painter : Painter τ) (hunk : Nat) (rows : List DiffRow) : List (PresentedRow τ) :=
  rows.zipIdx.map fun (diff, row) =>
    let newLine := newLineOf diff
    .reviewedLine hunk row newLine ((newLine.bind self.fileLineTokens).getD (painter.plain diff))

/-- Show the rows of a folded reviewed hunk. -/
def expandReviewed (painter : Painter τ) (index : Nat) : Option (DiffPresentation τ) :=
  match self.rows[index]? with
  | some (.reviewedHunk hunk) => self.hunks.reviewed[hunk]?.map fun reviewed =>
    { self with
      rows := self.rows.take index ++ self.reviewedLines painter hunk reviewed.rows ++
        self.rows.drop (index + 1) }
  | _ => none

/-- Show the rows folded into one row: unchanged lines or a reviewed hunk. -/
def expand (painter : Painter τ) (index : Nat) : DiffPresentation τ :=
  ((self.expandGap index).or (self.expandReviewed painter index)).getD self

/-- Every unchanged section from a row on; the rows it leaves are none. -/
def expandAllRows : List (PresentedRow τ) → List (PresentedRow τ)
  | [] => []
  | .gap start lines :: rows => expandedLines start lines ++ expandAllRows rows
  | row :: rows => row :: expandAllRows rows

def expandAll : DiffPresentation τ := { self with rows := expandAllRows self.rows }

/-- The next row of a contracted presentation. -/
def contractRow (rows : List (PresentedRow τ)) : PresentedRow τ → List (PresentedRow τ)
  | .reviewedLine hunk row _ _ => if row = 0 then rows ++ [.reviewedHunk hunk] else rows
  | .expanded line tokens => match rows.getLast? with
    | some (.gap start lines) =>
      if start + lines.length = line then rows.dropLast ++ [.gap start (lines ++ [tokens])]
      else rows ++ [.gap line [tokens]]
    | _ => rows ++ [.gap line [tokens]]
  | row => rows ++ [row]

def isOpened : PresentedRow τ → Bool
  | .expanded _ _ | .reviewedLine _ _ _ _ => true
  | _ => false

def contractAll : DiffPresentation τ :=
  if self.rows.any isOpened then { self with rows := self.rows.foldl contractRow [] } else self

/-! Showing a line, counted from zero. -/

def showFile : Option (DiffPresentation τ) :=
  match self.view with
  | .file _ => none
  | .diff => self.fileRows.map fun rows => { self with rows, fileRows := none, view := .file self.rows }

/-- Whether a row shows a line that is counted from one. -/
def showsLine (displayLine : Nat) : PresentedRow τ → Bool
  | .diff index _ => match self.source[index]? with
    | some (.context _ newLine _) | some (.add newLine _) => newLine = displayLine
    | _ => false
  | .expanded line _ => line = displayLine
  | .reviewedLine _ _ newLine _ => newLine = some displayLine
  | .gap _ _ | .reviewedHunk _ => false

def isExpanded (displayLine : Nat) : PresentedRow τ → Bool
  | .expanded line _ => line = displayLine
  | _ => false

def isReviewedLine (displayLine : Nat) : PresentedRow τ → Bool
  | .reviewedLine _ _ newLine _ => newLine = some displayLine
  | _ => false

def gapHolds (displayLine : Nat) : PresentedRow τ → Bool
  | .gap start lines => start ≤ displayLine ∧ displayLine < start + lines.length
  | _ => false

/-- The folded reviewed hunk that holds the line. -/
def foldedRowHolding (line : Nat) : Option Nat :=
  self.rows.findIdx? fun row =>
    match row with
    | .reviewedHunk hunk => self.hunks.reviewed[hunk]?.any fun reviewed =>
      let lines := reviewed.span.new
      lines.holds line || (lines.isEmpty && lines.start == line)
    | _ => false

def revealDiffLine (painter : Painter τ) (line : Nat) : DiffPresentation τ × Option Nat :=
  let displayLine := line + 1
  match self.rows.findIdx? (self.showsLine displayLine) with
  | some index => (self, some index)
  | none =>
    match self.rows.findIdx? (gapHolds displayLine) with
    | some index =>
      let self := self.expand painter index
      (self, self.rows.findIdx? (isExpanded displayLine))
    | none =>
      match self.foldedRowHolding line with
      | some index =>
        let self := self.expand painter index
        (self, self.rows.findIdx? (isReviewedLine displayLine))
      | none => (self, none)

def revealLine (painter : Painter τ) (line : Nat) : DiffPresentation τ × Option Nat :=
  match self.revealDiffLine painter line with
  | (self, some index) => (self, some index)
  | (self, none) => match self.showFile with
    | some self => (self, self.rows.findIdx? (isExpanded (line + 1)))
    | none => (self, none)

/-- One change of what is folded. -/
inductive Folding where
  | expand (index : Nat)
  | expandAll
  | contractAll
  deriving DecidableEq, Repr

def apply (painter : Painter τ) : Folding → DiffPresentation τ
  | .expand index => self.expand painter index
  | .expandAll => self.expandAll
  | .contractAll => self.contractAll

end DiffPresentation

end ProgressiveReviewer.Presentation
