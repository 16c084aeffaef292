import ProgressiveReviewer.Explore.Source
import ProgressiveReviewer.Hunks.UnifiedRows
import ProgressiveReviewer.Library.Ascending

/-! The lines a citation puts before the reviewer (`review-explore/src/citation.rs`). Line numbers
are natural numbers here; the source counts lines in 32 bits. -/

namespace ProgressiveReviewer.Explore

open Library Library.Extent Hunks

open Marks (displayPath)

open Parsers (textLines stripLast)

/-- Why a citation shows no lines. -/
inductive Uncitable where
  | path
  | unreadable (error : String)
  | range
  | wholeFile
  | noTextDiff (kind : NoticeKind)
  | untracked
  | gone
  deriving DecidableEq, Repr

structure CitedLines where
  path : String
  rows : List DiffRow
  oldContent : Option Bytes
  newContent : Option Bytes
  deriving DecidableEq, Repr

/-- `old` on the old side, `new` on the new side. -/
def SourceSide.pick {α : Type*} (old new : α) : SourceSide → α
  | .old => old
  | .new => new

/-- The rows of one side of a changed file. -/
structure FileRows where
  side : SourceSide
  rows : List DiffRow
  deriving DecidableEq, Repr

/-- A file while its rows are listed, with the number of the next line on both sides. -/
structure Listing where
  file : FileRows
  old : Nat
  new : Nat
  deriving DecidableEq, Repr

namespace Listing

/-- Appends unchanged rows, with the text of this side's lines. -/
def unchanged (lines : List (List Char)) : Nat → Listing → Listing
  | 0, listing => listing
  | count + 1, ⟨⟨side, rows⟩, old, new⟩ =>
    let text := (lines[side.pick old new - 1]?).getD []
    unchanged lines count
      ⟨⟨side, rows ++ [.context old new (String.ofList (' ' :: text))]⟩, old + 1, new + 1⟩

/-- The unchanged lines before a row of lines. -/
def unchangedBefore (listing : Listing) : DiffRow → Option Nat
  | .context _ newLine _ | .add newLine _ => some (newLine - listing.new)
  | .delete oldLine _ => some (oldLine - listing.old)
  | _ => none

def counted (listing : Listing) (row : DiffRow) : Listing :=
  match row with
  | .context oldLine newLine _ => { listing with old := oldLine + 1, new := newLine + 1 }
  | .add newLine _ => { listing with new := newLine + 1 }
  | .delete oldLine _ => { listing with old := oldLine + 1 }
  | _ => listing

def pushRow (listing : Listing) (row : DiffRow) : Listing :=
  { listing with file := { listing.file with rows := listing.file.rows ++ [row] } }

def push (lines : List (List Char)) (listing : Listing) (row : DiffRow) : Listing :=
  match listing.unchangedBefore row with
  | none => listing
  | some count => ((unchanged lines count listing).counted row).pushRow row

end Listing

namespace FileRows

/-- The rows of the diff, with the unchanged lines between its hunks filled in. -/
def new (diff : List DiffRow) (side : SourceSide) (content : String) : FileRows :=
  let lines := textLines content.toList
  let listing := diff.foldl (Listing.push lines) ⟨⟨side, []⟩, 1, 1⟩
  let rest := min lines.length (2 ^ 32 - 1) - (side.pick listing.old listing.new - 1)
  (Listing.unchanged lines rest listing).file

/-- The number of a row on this side, when the side has the row. -/
def line (file : FileRows) (row : DiffRow) : Option Nat :=
  match file.side, row with
  | .old, .context line _ _ | .old, .delete line _ | .new, .context _ line _ | .new, .add line _ =>
    some line
  | _, _ => none

/-- The rows from the first line of a range to its last. -/
def cited (file : FileRows) (range : SourceLineRange) : Except Uncitable (List DiffRow) :=
  let first := file.rows.findIdx? fun row => file.line row = some range.firstLine
  let last := rposition (fun row => file.line row = some range.lastLine) file.rows
  match first, last with
  | some first, some last =>
    if first ≤ last then .ok (cut file.rows ⟨first, last + 1⟩) else .error .range
  | _, _ => .error .range

end FileRows

namespace CitedLines

/-- The cited lines of a file, from the rows of its change and its content on both sides. -/
def inDiff (location : CodeLocation) (diff : List DiffRow) (oldContent newContent : Option Bytes) :
    Except Uncitable CitedLines :=
  match location.lines, diff.find? DiffRow.isNotice with
  | none, _ => .error .wholeFile
  | some _, some (.notice kind _) => .error (.noTextDiff kind)
  | some range, _ => do
    let text := (location.side.pick oldContent newContent).bind fun content =>
      String.fromUTF8? ⟨content.toArray⟩
    let content ← text.elim (.error .range) .ok
    let rows ← (FileRows.new diff location.side content).cited range
    return ⟨displayPath location.path, rows, oldContent, newContent⟩

/-- The lines of a range, from the rows of the change alone. -/
def inDiffAlone (path : String) (side : SourceSide) (range : SourceLineRange)
    (diff : List DiffRow) : Except Uncitable CitedLines :=
  match diff.find? DiffRow.isNotice with
  | some (.notice kind _) => .error (.noTextDiff kind)
  | _ =>
    let file : FileRows := ⟨side, diff.filter DiffRow.isContent⟩
    match file.cited range with
    | .error _ => .error .gone
    | .ok rows =>
      -- Between two hunks, the rows skip the lines the change left alone.
      if (rows.filter fun row => (file.line row).isSome).length ≠
        range.lastLine - range.firstLine + 1 then .error .gone
      else .ok ⟨path, rows, none, none⟩

end CitedLines

/-! ## Every line of a side -/

/-- The line of a text as it is listed. -/
def shownLine (line : Bytes) : List Char :=
  match stripLast (decode line) '\n' with
  | none => decode line
  | some line => (stripLast line '\r').getD line

/-- The text of a row: one that is filled in keeps a carriage return without a newline after it,
which one that was parsed drops. -/
def IsText (marker : Char) (line : Bytes) (text : String) : Prop :=
  text = rowText marker (some line) ∨ text = String.ofList (marker :: shownLine line)

/-- Rows that list every line from one pair of positions to another. -/
def ListsLines (xs ys : Lines) (i' j' : Nat) : Nat → Nat → List DiffRow → Prop
  | i, j, [] => i = i' ∧ j = j'
  | i, j, .context oldLine newLine text :: rows =>
    (oldLine = i + 1 ∧ newLine = j + 1 ∧
      ∃ line, xs[i]? = some line ∧ ys[j]? = some line ∧ IsText ' ' line text) ∧
      ListsLines xs ys i' j' (i + 1) (j + 1) rows
  | i, j, .delete oldLine text :: rows =>
    (oldLine = i + 1 ∧ ∃ line, xs[i]? = some line ∧ IsText '-' line text) ∧
      ListsLines xs ys i' j' (i + 1) j rows
  | i, j, .add newLine text :: rows =>
    (newLine = j + 1 ∧ ∃ line, ys[j]? = some line ∧ IsText '+' line text) ∧
      ListsLines xs ys i' j' i (j + 1) rows
  | _, _, _ => False

/-- Rows of a diff that may leave out unchanged lines before any row. -/
def Leaves (xs ys : Lines) : Nat → Nat → List DiffRow → Prop
  | i, j, [] => Library.Kept xs ys i j xs.length ys.length
  | i, j, .context oldLine newLine text :: rows => ∃ i' j', Library.Kept xs ys i j i' j' ∧
      ListsLines xs ys (i' + 1) (j' + 1) i' j' [.context oldLine newLine text] ∧
      Leaves xs ys (i' + 1) (j' + 1) rows
  | i, j, .delete oldLine text :: rows => ∃ i' j', Library.Kept xs ys i j i' j' ∧
      ListsLines xs ys (i' + 1) j' i' j' [.delete oldLine text] ∧ Leaves xs ys (i' + 1) j' rows
  | i, j, .add newLine text :: rows => ∃ i' j', Library.Kept xs ys i j i' j' ∧
      ListsLines xs ys i' (j' + 1) i' j' [.add newLine text] ∧ Leaves xs ys i' (j' + 1) rows
  | i, j, _ :: rows => Leaves xs ys i j rows

section Lists

variable {xs ys : Lines} {i j i' j' : Nat} {rows : List DiffRow}

theorem ListsLines.append {i'' j'' : Nat} {rest : List DiffRow}
    (lists : ListsLines xs ys i' j' i j rows) (then_ : ListsLines xs ys i'' j'' i' j' rest) :
    ListsLines xs ys i'' j'' i j (rows ++ rest) := by
  induction rows generalizing i j with
  | nil =>
    obtain ⟨rfl, rfl⟩ := lists
    exact then_
  | cons row rows ih =>
    cases row <;> first | exact lists.elim | exact ⟨lists.1, ih lists.2⟩

/-- Unchanged lines may be left out before the rows too. -/
theorem Leaves.keep (kept : Library.Kept xs ys i j i' j')
    (leaves : Leaves xs ys i' j' rows) : Leaves xs ys i j rows := by
  induction rows with
  | nil => exact kept.trans leaves
  | cons row rows ih =>
    cases row <;> first | exact ih leaves | skip
    all_goals
      obtain ⟨i'', j'', between, own, leaves⟩ := leaves
      exact ⟨i'', j'', kept.trans between, own, leaves⟩

/-- Rows that show lines leave none of them out. -/
theorem Leaves.shows {rest : List DiffRow} (bound : i ≤ xs.length) (bound' : j ≤ ys.length)
    (shown : ShowsLines xs ys i' j' i j rows) (leaves : Leaves xs ys i' j' rest) :
    Leaves xs ys i j (rows ++ rest) := by
  induction rows generalizing i j with
  | nil =>
    obtain ⟨rfl, rfl⟩ := shown
    exact leaves
  | cons row rows ih =>
    have here : Library.Kept xs ys i j i j := .refl bound bound'
    cases row <;> first | exact shown.elim | skip
    · exact ih bound bound' shown
    · obtain ⟨⟨number, number', line, old, new, text⟩, shown⟩ := shown
      exact ⟨i, j, here, ⟨⟨number, number', line, old, new, .inl text⟩, rfl, rfl⟩,
        ih (getElem?_bound old) (getElem?_bound new) shown⟩
    · obtain ⟨⟨number, line, old, text⟩, shown⟩ := shown
      exact ⟨i, j, here, ⟨⟨number, line, old, .inl text⟩, rfl, rfl⟩,
        ih (getElem?_bound old) bound' shown⟩
    · obtain ⟨⟨number, line, new, text⟩, shown⟩ := shown
      exact ⟨i, j, here, ⟨⟨number, line, new, .inl text⟩, rfl, rfl⟩,
        ih bound (getElem?_bound new) shown⟩

theorem Leaves.sections {parts : List Section} {gap : Nat}
    (shown : ShowsSections xs ys gap i j parts) : Leaves xs ys i j (parts.flatMap Section.all) := by
  induction parts generalizing gap i j with
  | nil => exact shown
  | cons part parts ih =>
    obtain ⟨-, kept, own, rest⟩ := shown
    have here : Leaves xs ys part.around.before.start part.around.after.start
        (part.rows ++ parts.flatMap Section.all) := Leaves.shows kept.bound kept.bound' own (ih rest)
    exact Leaves.keep kept here

/-- The rows of a diff leave out unchanged lines only. -/
theorem Leaves.diff {diff : List DiffRow} (shown : ShowsDiff xs ys diff) :
    Leaves xs ys 0 0 diff := by
  obtain ⟨said, parts, rfl, plain, shown⟩ := shown
  induction said with
  | nil => exact Leaves.sections shown
  | cons row said ih =>
    have own := plain row List.mem_cons_self
    have kept : Leaves xs ys 0 0 (said ++ parts.flatMap Section.all) :=
      ih fun row mem => plain row (List.mem_cons_of_mem _ mem)
    cases row <;> first | exact kept | exact absurd own (by simp [DiffRow.isSaid])

end Lists

namespace Listing

variable {xs ys : Lines} {i j i' j' : Nat} {side : SourceSide} {lines : List (List Char)}

/-- A listing that has every line before `(i, j)`. -/
def At (xs ys : Lines) (side : SourceSide) (i j : Nat) (listing : Listing) : Prop :=
  listing.file.side = side ∧ listing.old = i + 1 ∧ listing.new = j + 1 ∧
    ListsLines xs ys i j 0 0 listing.file.rows

/-- The lines of this side, as the rows filled in show them. -/
def Content (xs ys : Lines) (side : SourceSide) (lines : List (List Char)) : Prop :=
  lines = (side.pick xs ys).map shownLine

/-- Filling in lines that are kept. -/
theorem At.unchanged {count : Nat} {listing : Listing} (came : listing.At xs ys side i j)
    (content : Content xs ys side lines) (kept : Library.Kept xs ys i j (i + count) (j + count)) :
    (Listing.unchanged lines count listing).At xs ys side (i + count) (j + count) := by
  induction count generalizing i j listing with
  | zero => exact came
  | succ count ih =>
    obtain ⟨⟨own, rows⟩, _, _⟩ := listing
    obtain ⟨rfl, rfl, rfl, lists⟩ := came
    have same : xs[i]? = ys[j]? := kept.getElem? (n := 0) (by omega)
    have bound : i < xs.length := Nat.lt_of_lt_of_le (by omega) kept.bound
    obtain ⟨line, old⟩ : ∃ line, xs[i]? = some line := ⟨_, List.getElem?_eq_getElem bound⟩
    have new : ys[j]? = some line := same ▸ old
    have text : (lines[own.pick (i + 1) (j + 1) - 1]?).getD [] = shownLine line := by
      rw [content, List.getElem?_map]
      cases own <;> simp [SourceSide.pick, old, new]
    rw [show i + (count + 1) = i + 1 + count by omega, show j + (count + 1) = j + 1 + count by omega]
      at kept ⊢
    refine ih ⟨rfl, rfl, rfl, lists.append ?_⟩
      (kept.within (by omega) (by omega) (by omega) (by omega) (by omega))
    exact ⟨⟨rfl, rfl, line, old, new, .inr (by rw [text])⟩, rfl, rfl⟩

theorem At.kept {listing : Listing} (came : listing.At xs ys side i j)
    (content : Content xs ys side lines) (kept : Library.Kept xs ys i j i' j') :
    (Listing.unchanged lines (i' - i) listing).At xs ys side i' j' := by
  have le := kept.le
  have shift := kept.shift
  have stop : i + (i' - i) = i' := by omega
  have stop' : j + (i' - i) = j' := by omega
  have filled := @At.unchanged _ _ i j side lines (i' - i) listing came content (by rwa [stop, stop'])
  rwa [stop, stop'] at filled

/-- A row of lines comes after the unchanged lines before it. -/
theorem At.push {listing : Listing} {row : DiffRow} {a b : Nat}
    (came : listing.At xs ys side i j) (content : Content xs ys side lines)
    (kept : Library.Kept xs ys i j i' j') (before : listing.unchangedBefore row = some (i' - i))
    (counts : ∀ listing : Listing, listing.old = i' + 1 → listing.new = j' + 1 →
      listing.counted row = { listing with old := a + 1, new := b + 1 })
    (own : ListsLines xs ys a b i' j' [row]) :
    (Listing.push lines listing row).At xs ys side a b := by
  have filled := came.kept content kept
  rw [Listing.push, before]
  obtain ⟨isSide, old, new, lists⟩ := filled
  dsimp only
  rw [counts _ old new]
  exact ⟨isSide, rfl, rfl, lists.append own⟩

/-- After the rows of a diff only unchanged lines are missing. -/
theorem At.foldl {rows : List DiffRow} {listing : Listing} (came : listing.At xs ys side i j)
    (content : Content xs ys side lines) (leaves : Leaves xs ys i j rows) :
    ∃ i' j', (rows.foldl (Listing.push lines) listing).At xs ys side i' j' ∧
      Library.Kept xs ys i' j' xs.length ys.length := by
  induction rows generalizing i j listing with
  | nil => exact ⟨i, j, came, leaves⟩
  | cons row rows ih =>
    have old := came.2.1
    have new := came.2.2.1
    cases row with
    | context oldLine newLine text =>
      obtain ⟨i', j', kept, own, leaves⟩ := leaves
      obtain ⟨rfl, rfl, -⟩ := own.1
      have shift := kept.shift
      refine ih (came.push content kept ?_ (fun _ _ _ => rfl) own) leaves
      rw [Listing.unchangedBefore, new]
      exact congrArg some (by omega)
    | delete oldLine text =>
      obtain ⟨i', j', kept, own, leaves⟩ := leaves
      obtain ⟨rfl, -⟩ := own.1
      refine ih (came.push content kept ?_ (fun listing _ new => ?_) own) leaves
      · rw [Listing.unchangedBefore, old, Nat.add_sub_add_right]
      · rw [Listing.counted, ← new]
    | add newLine text =>
      obtain ⟨i', j', kept, own, leaves⟩ := leaves
      obtain ⟨rfl, -⟩ := own.1
      have shift := kept.shift
      refine ih (came.push content kept ?_ (fun listing old _ => ?_) own) leaves
      · rw [Listing.unchangedBefore, new]
        exact congrArg some (by omega)
      · rw [Listing.counted, ← old]
    | _ => exact ih came leaves

end Listing

/-- The lines of a text, as they are listed. -/
theorem content_textLines {old new : Bytes} {side : SourceSide} {content : String}
    (same : side.pick old new = bytesOf content) :
    Listing.Content (Lines.new old) (Lines.new new) side (textLines content.toList) := by
  have lines : side.pick (Lines.new old) (Lines.new new) =
      (splitInclusive (· == '\n') content.toList).map encode := by
    have own : side.pick (Lines.new old) (Lines.new new) = Lines.new (side.pick old new) := by
      cases side <;> rfl
    rw [own, same, bytesOf_eq]
    exact splitInclusive_encode content.toList
  rw [Listing.Content, lines, textLines, List.map_map]
  refine List.map_congr_left fun line _ => ?_
  cases ends : stripLast line '\n' <;>
    simp only [Function.comp_apply, shownLine, decode_encode, ends]

namespace FileRows

variable {old new : Bytes} {side : SourceSide} {content : String} {diff : List DiffRow}

/-- The rows of a file list every line. -/
theorem new_lists (shown : ShowsDiff (Lines.new old) (Lines.new new) diff)
    (same : side.pick old new = bytesOf content)
    (few : (Lines.new (side.pick old new)).length < 2 ^ 32) :
    (FileRows.new diff side content).side = side ∧
      ListsLines (Lines.new old) (Lines.new new) (Lines.new old).length (Lines.new new).length 0 0
        (FileRows.new diff side content).rows := by
  have texts := content_textLines same
  have start : (⟨⟨side, []⟩, 1, 1⟩ : Listing).At (Lines.new old) (Lines.new new) side 0 0 :=
    ⟨rfl, rfl, rfl, rfl, rfl⟩
  obtain ⟨i, j, came, kept⟩ := start.foldl texts (Leaves.diff shown)
  have size : (textLines content.toList).length = (Lines.new (side.pick old new)).length := by
    rw [texts, List.length_map]
    cases side <;> rfl
  have rest : min (textLines content.toList).length (2 ^ 32 - 1) - (side.pick (i + 1) (j + 1) - 1) =
      (Lines.new old).length - i := by
    have shift := kept.shift
    have bound := kept.le
    cases side <;> simp only [SourceSide.pick] at size few ⊢ <;> omega
  rw [FileRows.new, came.2.1, came.2.2.1, rest]
  obtain ⟨isSide, -, -, lists⟩ := came.kept texts kept
  exact ⟨isSide, lists⟩

theorem line_none (file : FileRows) {row : DiffRow} (other : row.isContent = false) :
    file.line row = none := by
  obtain ⟨side, _⟩ := file
  cases row <;> first | exact Bool.noConfusion other | cases side <;> rfl

/-- The numbers of a file's rows on its side. -/
def numbers (file : FileRows) : List Nat := file.rows.filterMap file.line

/-- The rows of a range: from the row of its first line to the row of its last. -/
theorem cited_of_mem {file : FileRows} (ascending : Ascending file.line file.rows)
    {range : SourceLineRange} (held : range.firstLine ∈ file.numbers)
    (held' : range.lastLine ∈ file.numbers) (le : range.firstLine ≤ range.lastLine) :
    ∃ front mid back, file.rows = front ++ mid ++ back ∧ file.cited range = .ok mid ∧
      mid.head?.bind file.line = some range.firstLine ∧
      mid.getLast?.bind file.line = some range.lastLine ∧
      (mid.filterMap file.line).Pairwise (· < ·) ∧
      (∀ n ∈ mid.filterMap file.line, range.firstLine ≤ n ∧ n ≤ range.lastLine) ∧
      ∀ n, range.firstLine ≤ n → n ≤ range.lastLine →
        (n ∈ mid.filterMap file.line ↔ n ∈ file.numbers) := by
  obtain ⟨front, mid, back, split, head, last, before, inside, after, first, stop⟩ :=
    ascending.stretch held held' le
  have some_ : mid ≠ [] := by
    rintro rfl
    cases head
  have size := List.length_pos_of_ne_nil some_
  have whole : cut file.rows ⟨front.length, front.length + mid.length - 1 + 1⟩ = mid := by
    rw [Nat.sub_add_cancel (by omega), split, cut, List.append_assoc, List.drop_left,
      Nat.add_sub_cancel_left, List.take_left]
  refine ⟨front, mid, back, split, ?_, head, last, ?_, inside, fun n low high => ?_⟩
  · rw [cited, first, stop]
    dsimp only
    rw [if_pos (by omega), whole]
  · refine List.Pairwise.sublist ?_ ascending
    rw [split]
    exact ((List.sublist_append_right _ _).trans (List.sublist_append_left _ _)).filterMap _
  · rw [numbers, split, List.filterMap_append, List.filterMap_append, List.mem_append,
      List.mem_append]
    refine ⟨fun mem => .inl (.inr mem), ?_⟩
    rintro ((mem | mem) | mem)
    · exact absurd (before n mem) (by omega)
    · exact mem
    · exact absurd (after n mem) (by omega)

/-- A range that ends before it starts, or at a line that is not listed, has no rows. -/
theorem cited_error {file : FileRows} (ascending : Ascending file.line file.rows)
    {range : SourceLineRange} (out : ¬ (range.firstLine ∈ file.numbers ∧
      range.lastLine ∈ file.numbers ∧ range.firstLine ≤ range.lastLine)) :
    file.cited range = .error .range := by
  rw [cited]
  by_cases held : range.firstLine ∈ file.numbers
  · by_cases held' : range.lastLine ∈ file.numbers
    · have lt : range.lastLine < range.firstLine := Nat.lt_of_not_le fun le => out ⟨held, held', le⟩
      obtain ⟨front, mid, back, -, head, last, -, -, -, stop, first⟩ :=
        ascending.stretch held' held (Nat.le_of_lt lt)
      rw [← ascending.rposition_eq, first, ascending.rposition_eq, stop]
      dsimp only
      refine if_neg fun le => ?_
      rcases mid with _ | ⟨row, _ | ⟨row', mid⟩⟩
      · cases head
      · exact Nat.ne_of_lt lt (Option.some.inj (head.symm.trans last))
      · simp only [List.length_cons] at le
        omega
    · rw [rposition_none (carries_none held')]
      split <;> simp_all
  · rw [List.findIdx?_eq_none_iff.mpr (carries_none held)]

end FileRows

section Numbers

variable {xs ys : Lines} {i j i' j' : Nat} {rows : List DiffRow} (file : FileRows)

/-- The text of a row is a line's. -/
def RowShows (line : Bytes) : DiffRow → Prop
  | .context _ _ text => IsText ' ' line text
  | .delete _ text => IsText '-' line text
  | .add _ text => IsText '+' line text
  | _ => False

/-- Listed lines are numbered one after another. -/
theorem ListsLines.numbers (lists : ListsLines xs ys i' j' i j rows) :
    i ≤ i' ∧ j ≤ j' ∧ rows.filterMap file.line =
      List.range' (file.side.pick i j + 1) (file.side.pick i' j' - file.side.pick i j) := by
  induction rows generalizing i j with
  | nil =>
    obtain ⟨rfl, rfl⟩ := lists
    exact ⟨Nat.le_refl i, Nat.le_refl j, by rw [Nat.sub_self]; rfl⟩
  | cons row rows ih =>
    obtain ⟨side, _⟩ := file
    have next : ∀ a b, a < b → (a + 1) :: List.range' (a + 1 + 1) (b - (a + 1)) =
        List.range' (a + 1) (b - a) := by
      intro a b lt
      rw [← List.range'_succ, show b - (a + 1) + 1 = b - a by omega]
    cases row <;> first | exact lists.elim | skip
    all_goals
      obtain ⟨le, le', same⟩ := ih lists.2
      refine ⟨by omega, by omega, ?_⟩
      rw [List.filterMap_cons, same]
      cases side <;> simp only [FileRows.line, SourceSide.pick]
    · rw [lists.1.1]
      exact next i i' (by omega)
    · rw [lists.1.2.1]
      exact next j j' (by omega)
    · rw [lists.1.1]
      exact next i i' (by omega)
    · rw [lists.1.1]
      exact next j j' (by omega)

/-- The row with a number has the text of that line. -/
theorem ListsLines.texts (lists : ListsLines xs ys i' j' i j rows) :
    ∀ row ∈ rows, ∀ n, file.line row = some n →
      ∃ line, (file.side.pick xs ys)[n - 1]? = some line ∧ RowShows line row := by
  induction rows generalizing i j with
  | nil => exact fun _ mem => (List.not_mem_nil mem).elim
  | cons row rows ih =>
    rw [List.forall_mem_cons]
    obtain ⟨side, _⟩ := file
    cases row <;> first | exact lists.elim | refine ⟨fun n own => ?_, ih lists.2⟩
    all_goals cases side <;> simp only [FileRows.line, Option.some.injEq, reduceCtorEq] at own
    · obtain ⟨⟨number, -, line, old, -, text⟩, -⟩ := lists
      rw [number] at own
      exact ⟨line, own ▸ old, text⟩
    · obtain ⟨⟨-, number, line, -, new, text⟩, -⟩ := lists
      rw [number] at own
      exact ⟨line, own ▸ new, text⟩
    · obtain ⟨⟨number, line, old, text⟩, -⟩ := lists
      rw [number] at own
      exact ⟨line, own ▸ old, text⟩
    · obtain ⟨⟨number, line, new, text⟩, -⟩ := lists
      rw [number] at own
      exact ⟨line, own ▸ new, text⟩

theorem numbers_cons {row : DiffRow} {a b : Nat} (kept : Library.Kept xs ys i j i' j')
    (own : ListsLines xs ys a b i' j' [row])
    (rest : Ascending file.line rows ∧ ∀ n ∈ rows.filterMap file.line, file.side.pick a b < n) :
    Ascending file.line (row :: rows) ∧
      ∀ n ∈ (row :: rows).filterMap file.line, file.side.pick i j < n := by
  obtain ⟨le, le', listed⟩ := own.numbers file
  have before : file.side.pick i j ≤ file.side.pick i' j' := by
    have := kept.le
    have := kept.le'
    cases file.side <;> assumption
  have after : file.side.pick i' j' ≤ file.side.pick a b := by
    cases file.side <;> assumption
  have inside : ∀ n ∈ [row].filterMap file.line,
      file.side.pick i' j' < n ∧ n ≤ file.side.pick a b := by
    intro n mem
    rw [listed, List.mem_range'_1] at mem
    omega
  have whole : (row :: rows).filterMap file.line =
      [row].filterMap file.line ++ rows.filterMap file.line := by
    rw [← List.filterMap_append]
    rfl
  rw [Ascending, whole]
  refine ⟨List.pairwise_append.mpr ⟨listed ▸ List.pairwise_lt_range', rest.1, fun n mem m mem' => ?_⟩,
    fun n mem => ?_⟩
  · exact Nat.lt_of_le_of_lt (inside n mem).2 (rest.2 m mem')
  · rcases List.mem_append.mp mem with mem | mem
    · exact Nat.lt_of_le_of_lt before (inside n mem).1
    · exact Nat.lt_of_le_of_lt (Nat.le_trans before after) (rest.2 n mem)

/-- The numbers of a diff's rows grow. -/
theorem Leaves.numbers (leaves : Leaves xs ys i j rows) :
    Ascending file.line rows ∧ ∀ n ∈ rows.filterMap file.line, file.side.pick i j < n := by
  induction rows generalizing i j with
  | nil => exact ⟨.nil, fun _ mem => (List.not_mem_nil mem).elim⟩
  | cons row rows ih =>
    cases row with
    | context | delete | add =>
      obtain ⟨_, _, kept, own, leaves⟩ := leaves
      exact numbers_cons file kept own (ih leaves)
    | _ =>
      rw [Ascending, List.filterMap_cons, file.line_none rfl]
      exact ih leaves

end Numbers

namespace CitedLines

variable {xs ys : Lines} {diff : List DiffRow}

/-- The rows of lines alone have the numbers of all rows. -/
theorem numbers_content (side : SourceSide) (diff : List DiffRow) :
    (⟨side, diff.filter DiffRow.isContent⟩ : FileRows).numbers = (⟨side, diff⟩ : FileRows).numbers := by
  rw [FileRows.numbers, List.filterMap_filter]
  refine List.filterMap_congr fun row _ => ?_
  split_ifs with own
  · rfl
  · exact (FileRows.line_none ⟨side, diff⟩ (Bool.eq_false_iff.mpr own)).symm

/-- A range is built from the diff alone if its rows hold every line of it. -/
theorem inDiffAlone_iff (shown : ShowsDiff xs ys diff) (path : String) (side : SourceSide)
    (range : SourceLineRange) : (∃ cited, inDiffAlone path side range diff = .ok cited) ↔
      range.firstLine ≤ range.lastLine ∧ ∀ n, range.firstLine ≤ n → n ≤ range.lastLine →
        n ∈ (⟨side, diff⟩ : FileRows).numbers := by
  have clean : diff.find? DiffRow.isNotice = none := List.find?_eq_none.mpr fun row mem =>
    Bool.eq_false_iff.mp (shown.noNotice row mem)
  set file : FileRows := ⟨side, diff.filter DiffRow.isContent⟩ with isFile
  rw [inDiffAlone, clean]
  dsimp only
  rw [← isFile]
  have ascending : Ascending file.line file.rows := by
    have all : (⟨side, diff⟩ : FileRows).numbers.Pairwise (· < ·) :=
      (Leaves.numbers ⟨side, diff⟩ (Leaves.diff shown)).1
    rwa [← numbers_content] at all
  rw [← numbers_content, ← isFile]
  by_cases held : range.firstLine ∈ file.numbers ∧ range.lastLine ∈ file.numbers ∧
      range.firstLine ≤ range.lastLine
  · obtain ⟨_, mid, _, -, found, -, -, sorted, inside, own⟩ :=
      FileRows.cited_of_mem ascending held.1 held.2.1 held.2.2
    have size : (mid.filter fun row => (file.line row).isSome).length =
        range.lastLine - range.firstLine + 1 ↔ ∀ n, range.firstLine ≤ n → n ≤ range.lastLine →
          n ∈ file.numbers := by
      rw [← List.countP_eq_length_filter, ← List.length_filterMap_eq_countP,
        show range.lastLine - range.firstLine + 1 = range.lastLine + 1 - range.firstLine by omega,
        forall_mem_iff_length sorted inside]
      exact forall_congr' fun n => imp_congr_right fun low => imp_congr_right fun high => own n low high
    rw [found]
    dsimp only
    rw [← size]
    constructor
    · rintro ⟨_, same⟩
      refine ⟨held.2.2, ?_⟩
      by_contra other
      rw [if_pos other] at same
      cases same
    · rintro ⟨-, same⟩
      exact ⟨_, if_neg (not_not.mpr same)⟩
  · rw [FileRows.cited_error ascending held]
    dsimp only
    constructor
    · rintro ⟨_, same⟩
      cases same
    · rintro ⟨le, all⟩
      exact absurd ⟨all _ (Nat.le_refl _) le, all _ le (Nat.le_refl _), le⟩ held

/-- With text on the cited side, the cited lines are those of its file. -/
theorem inDiff_eq {location : CodeLocation} {range : SourceLineRange}
    (lines : location.lines = some range) (clean : ∀ row ∈ diff, row.isNotice = false)
    {oldContent newContent : Option Bytes} {content : String}
    (same : location.side.pick oldContent newContent = some (bytesOf content)) :
    inDiff location diff oldContent newContent =
      ((FileRows.new diff location.side content).cited range).map fun rows =>
        ⟨displayPath location.path, rows, oldContent, newContent⟩ := by
  have none_ : diff.find? DiffRow.isNotice = none := List.find?_eq_none.mpr fun row mem =>
    Bool.eq_false_iff.mp (clean row mem)
  rw [inDiff, lines, none_]
  dsimp only
  rw [same, Option.bind_some, fromUTF8_bytesOf]
  rfl

end CitedLines

/-- A range of lines of a text. -/
def SourceLineRange.Within (range : SourceLineRange) (lines : Lines) : Prop :=
  1 ≤ range.firstLine ∧ range.firstLine ≤ range.lastLine ∧ range.lastLine ≤ lines.length

/-- The rows of a file list every line of the cited side once, in order, among the other side's
rows. A range has the rows from its first line to its last, and is built from the diff alone if the
diff has them. -/
theorem cited_lines {old new : Bytes} {diff : List DiffRow}
    (shown : ShowsDiff (Lines.new old) (Lines.new new) diff) {side : SourceSide} {content : String}
    (same : side.pick old new = bytesOf content)
    (few : (Lines.new (side.pick old new)).length < 2 ^ 32) :
    let file := FileRows.new diff side content
    let lines := Lines.new (side.pick old new)
    ListsLines (Lines.new old) (Lines.new new) (Lines.new old).length (Lines.new new).length 0 0
        file.rows ∧
      file.numbers = List.range' 1 lines.length ∧
      (∀ row ∈ file.rows, ∀ n, file.line row = some n →
        ∃ line, lines[n - 1]? = some line ∧ RowShows line row) ∧
      (∀ range : SourceLineRange, range.Within lines → ∃ front mid back,
        file.rows = front ++ mid ++ back ∧ file.cited range = .ok mid ∧
          mid.head?.bind file.line = some range.firstLine ∧
          mid.getLast?.bind file.line = some range.lastLine ∧
          mid.filterMap file.line =
            List.range' range.firstLine (range.lastLine + 1 - range.firstLine)) ∧
      (∀ range : SourceLineRange, ¬ range.Within lines → file.cited range = .error .range) ∧
      (∀ path range, (∃ cited, CitedLines.inDiffAlone path side range diff = .ok cited) ↔
        range.firstLine ≤ range.lastLine ∧ ∀ n, range.firstLine ≤ n → n ≤ range.lastLine →
          n ∈ (⟨side, diff⟩ : FileRows).numbers) ∧
      ((∀ path range, range.Within lines →
          ∃ cited, CitedLines.inDiffAlone path side range diff = .ok cited) ↔
        ∀ n, 1 ≤ n → n ≤ lines.length → n ∈ (⟨side, diff⟩ : FileRows).numbers) := by
  intro file lines
  obtain ⟨isSide, lists⟩ := FileRows.new_lists shown same few
  have texts := lists.texts file
  have numbered : file.numbers = List.range' 1 lines.length := by
    have listed := (lists.numbers file).2.2
    rw [show file.side = side from isSide] at listed
    cases side <;> exact listed
  rw [show file.side.pick (Lines.new old) (Lines.new new) = lines by
    rw [show file.side = side from isSide]
    cases side <;> rfl] at texts
  have ascending : Ascending file.line file.rows := by
    rw [Ascending, show file.rows.filterMap file.line = _ from numbered]
    exact List.pairwise_lt_range'
  have held : ∀ n, n ∈ file.numbers ↔ 1 ≤ n ∧ n ≤ lines.length := by
    intro n
    rw [numbered, List.mem_range'_1]
    omega
  have alone := fun path range => CitedLines.inDiffAlone_iff shown path side range
  refine ⟨lists, numbered, texts, fun range within => ?_, fun range out => ?_,
    alone, fun all n low high => ?_, fun all path range within => ?_⟩
  · obtain ⟨low, le, high⟩ := within
    obtain ⟨front, mid, back, split, found, head, last, sorted, inside, own⟩ :=
      FileRows.cited_of_mem ascending ((held _).mpr ⟨low, by omega⟩)
        ((held _).mpr ⟨by omega, high⟩) le
    refine ⟨front, mid, back, split, found, head, last, eq_range' sorted fun n => ⟨inside n, ?_⟩⟩
    rintro ⟨low', high'⟩
    exact (own n low' high').mpr ((held n).mpr ⟨by omega, by omega⟩)
  · refine FileRows.cited_error ascending fun inside => out ?_
    obtain ⟨first, last, le⟩ := inside
    exact ⟨((held _).mp first).1, le, ((held _).mp last).2⟩
  · exact ((alone "" ⟨n, n⟩).mp (all "" ⟨n, n⟩ ⟨low, Nat.le_refl n, high⟩)).2 n (Nat.le_refl n)
      (Nat.le_refl n)
  · obtain ⟨low, le, high⟩ := within
    exact (alone path range).mpr ⟨le, fun n above below => all n (by omega) (by omega)⟩

/-- A file whose first line changes: the lines after its context are not in the diff. -/
def firstLineOld : Bytes := bytesOf "a\nb\nc\nd\ne\nf"

def firstLineNew : Bytes := bytesOf "x\ny\nb\nc\nd\ne\nf"

def firstLineDiffer : Differ := tableDiffer [((firstLineOld, firstLineNew), [⟨⟨0, 1⟩, ⟨0, 2⟩⟩])]

theorem firstLineDiffer_valid : firstLineDiffer.Valid := tableDiffer_valid (by decide)

def firstLineRows : List DiffRow :=
  unifiedRows firstLineDiffer "f" (.text (some (bytesOf "f")) (bytesOf "f")) firstLineOld firstLineNew

theorem firstLine_shown : ShowsDiff (Lines.new firstLineOld) (Lines.new firstLineNew) firstLineRows :=
  shows_unifiedRows firstLineDiffer_valid "f" _ _ _

/-- All seven lines of the new file are listed. -/
theorem cited_lines_new :
    (FileRows.new firstLineRows .new "x\ny\nb\nc\nd\ne\nf").numbers = [1, 2, 3, 4, 5, 6, 7] :=
  (cited_lines firstLine_shown (show SourceSide.new.pick firstLineOld firstLineNew = _ from rfl)
    (by decide)).2.1

/-- Lines the diff has are built from it alone, though it lacks the last line of the file. -/
theorem inDiffAlone_part : ShowsDiff (Lines.new firstLineOld) (Lines.new firstLineNew) firstLineRows ∧
    (Lines.new firstLineNew).length = 7 ∧ 7 ∉ (⟨.new, firstLineRows⟩ : FileRows).numbers ∧
    (CitedLines.inDiffAlone "f" .new ⟨1, 2⟩ firstLineRows).isOk = true :=
  ⟨firstLine_shown, by decide, by decide, by decide⟩

end ProgressiveReviewer.Explore
