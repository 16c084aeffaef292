import ProgressiveReviewer.Presentation.Woven

/-! The rows of a diff before any fold: its hunks, and the unchanged sections between them. -/

namespace ProgressiveReviewer.Presentation

open Library Library.Extent Hunks

variable {τ : Type}

/-- The rows of a file's diff as the program's differs draw it. -/
structure FileDiff (before after : Lines) (rows : List DiffRow) (parts : List Section) : Prop where
  shown : ∃ said, rows = said ++ parts.flatMap Section.all ∧ (∀ row ∈ said, row.isSaid = true) ∧
    ShowsSections before after 0 0 0 parts
  /-- Every hunk changes a line, and has context in a file that has lines. -/
  changes : ∀ part ∈ parts, part.rows.any isChanged = true
  sized : ∀ part ∈ parts, part.around.after.size = 0 → after = []
  added : WholeFile.detect rows = some .added → before = []
  deleted : WholeFile.detect rows = some .deleted → after = []

/-- The visible rows of the part of a diff that ends at a line. -/
structure Presents (all : List DiffRow) (reviewed : List ReviewedHunk) (file : List τ)
    (line : Nat) (done : List DiffRow) (presented : PresentationRows τ) : Prop where
  source : presented.source = done
  lines : presented.afterChangeLines = some file
  mode : presented.wholeFile = WholeFile.detect all
  fits : ∀ row ∈ presented.rows, Fits all reviewed file row
  spaced : Spaced isGap presented.rows
  changed : presented.rows.filterMap (changedRow all) = done.filter isChanged
  tiles : Tiles (rowSpan all reviewed) line 0 presented.rows

/-- The last row is no unchanged section. -/
def Closed (presented : PresentationRows τ) : Prop :=
  ∀ last ∈ presented.rows.getLast?, isGap last = false

section Push

variable {all done : List DiffRow} {reviewed : List ReviewedHunk} {file : List τ} {line : Nat}
  {presented : PresentationRows τ} {row : DiffRow}

theorem Presents.hidden (presents : Presents all reviewed file line done presented) (tokens : τ)
    (invisible : presented.isVisible row = false) (plain : HunkWalk.start row = none)
    (kept : isChanged row = false) :
    Presents all reviewed file line (done ++ [row]) (presented.push ⟨row, tokens⟩) ∧
      (presented.push ⟨row, tokens⟩).rows = presented.rows ∧
      (presented.push ⟨row, tokens⟩).previousHunkEnd = presented.previousHunkEnd := by
  have same : presented.pushGapBefore row = presented := by
    cases row <;> first | rfl | cases plain
  have made : presented.push ⟨row, tokens⟩ =
      { presented with source := presented.source ++ [row] } := by
    rw [PresentationRows.push, same, invisible]
    rfl
  rw [made]
  refine ⟨⟨?_, presents.lines, presents.mode, presents.fits, presents.spaced, ?_, presents.tiles⟩,
    rfl, rfl⟩
  · rw [presents.source]
  · rw [presents.changed, List.filter_append, List.filter_cons_of_neg (by simp [kept])]
    exact (List.append_nil _).symm

theorem Presents.shown (presents : Presents all reviewed file line done presented) {tokens : τ}
    (visible : presented.isVisible row = true) (plain : HunkWalk.start row = none)
    (held : all[done.length]? = some row) {next : Nat}
    (moves : match DiffPresentation.newLineOf row with
      | none => next = line
      | some number => next = line + 1 ∧ number = line + 1 ∧ file[line]? = some tokens) :
    Presents all reviewed file next (done ++ [row]) (presented.push ⟨row, tokens⟩) ∧
      Closed (presented.push ⟨row, tokens⟩) ∧
      (presented.push ⟨row, tokens⟩).previousHunkEnd = presented.previousHunkEnd := by
  have same : presented.pushGapBefore row = presented := by
    cases row <;> first | rfl | cases plain
  have made : presented.push ⟨row, tokens⟩ =
      { presented with
        source := presented.source ++ [row]
        rows := presented.rows ++ [.diff done.length tokens] } := by
    rw [PresentationRows.push, same, visible, presents.source]
    rfl
  have span : rowSpan all reviewed (.diff done.length tokens) =
      (DiffPresentation.newLineOf row).map fun number => ⟨number - 1, number⟩ := by
    rw [rowSpan, held]
    rfl
  rw [made]
  refine ⟨⟨?_, presents.lines, presents.mode, ?_, ?_, ?_, ?_⟩, ?_, rfl⟩
  · rw [presents.source]
  · intro own mem
    rcases List.mem_append.mp mem with mem | mem
    · exact presents.fits own mem
    · rw [List.mem_singleton.mp mem]
      refine ⟨row, held, fun number new => ?_⟩
      rw [new] at moves
      obtain ⟨-, rfl, token⟩ := moves
      exact ⟨Nat.succ_pos _, token⟩
  · exact spaced_concat presents.spaced fun none => by cases none
  · have own : changedRow all (.diff done.length tokens) = (some row).filter isChanged := by
      rw [changedRow, held]
    rw [List.filterMap_append, presents.changed, List.filter_append, List.filterMap_cons, own]
    cases kept : isChanged row <;> simp [Option.filter, kept]
  · refine tiles_append presents.tiles ?_
    rw [Tiles, span]
    cases new : DiffPresentation.newLineOf row with
    | none =>
      rw [new] at moves
      exact moves.symm
    | some number =>
      rw [new] at moves
      obtain ⟨rfl, rfl, -⟩ := moves
      exact ⟨rfl, Nat.le_succ _, rfl⟩
  · intro last mem
    rw [List.getLast?_concat] at mem
    cases mem
    rfl

/-- An unchanged section up to a line. -/
theorem Presents.gap (presents : Presents all reviewed file line done presented)
    (closed : Closed presented) {stop : Nat} (le : line ≤ stop) (bound : stop ≤ file.length) :
    Presents all reviewed file stop done (presented.pushGap (line + 1) (stop + 1)) := by
  rw [PresentationRows.pushGap]
  rcases Nat.eq_or_lt_of_le le with rfl | less
  · rw [if_neg (Nat.lt_irrefl _)]
    exact presents
  · have found : gapLines presented.afterChangeLines (line + 1) (stop + 1) =
        some (cut file ⟨line, stop⟩) := by
      rw [gapLines, presents.lines, if_neg (by omega), Option.bind_some, Nat.add_sub_cancel,
        Nat.add_sub_cancel, if_pos ⟨le, bound⟩]
    have size : (cut file ⟨line, stop⟩).length = stop - line := cut_length file ⟨line, stop⟩ bound
    rw [if_pos (Nat.succ_lt_succ less), found]
    refine ⟨presents.source, presents.lines, presents.mode, ?_, ?_, ?_, ?_⟩
    · intro own mem
      rcases List.mem_append.mp mem with mem | mem
      · exact presents.fits own mem
      · rw [List.mem_singleton.mp mem]
        refine ⟨Nat.succ_pos _, List.ne_nil_of_length_pos (by omega), ?_, ?_⟩ <;>
          rw [size, Nat.add_sub_cancel, Nat.add_sub_cancel' le]
        exact bound
    · exact spaced_concat presents.spaced fun _ => closed
    · rw [List.filterMap_append, presents.changed]
      exact List.append_nil _
    · refine tiles_append presents.tiles ?_
      rw [Tiles, rowSpan, size, Nat.add_sub_cancel, Nat.add_sub_cancel' le]
      exact ⟨rfl, le, rfl⟩

end Push

/-! The rows of a whole diff. -/

section Whole

variable {all : List DiffRow} {reviewed : List ReviewedHunk} {file : List τ} {xs ys : Lines}
  {paint : DiffRow → τ} {presented : PresentationRows τ}

/-- How the rows of a diff come with their modes and tokens. -/
structure Painted (all : List DiffRow) (xs ys : Lines) (file : List τ) (paint : DiffRow → τ) : Prop where
  tokens : ∀ row line, DiffPresentation.newLineOf row = some (line + 1) → line < file.length →
    file[line]? = some (paint row)
  added : WholeFile.detect all = some .added → xs = []
  deleted : WholeFile.detect all = some .deleted → ys = []
  size : file.length = ys.length

/-- The rows of lines are visible. -/
theorem Painted.visible (painted : Painted all xs ys file paint)
    (mode : presented.wholeFile = WholeFile.detect all) (row : DiffRow) (content : row.isContent = true)
    (old : (∀ line text, row ≠ .add line text) → xs ≠ [])
    (new : (∀ line text, row ≠ .delete line text) → ys ≠ []) : presented.isVisible row = true := by
  rw [PresentationRows.isVisible, mode]
  cases kind : WholeFile.detect all with
  | none => exact Bool.or_eq_true_iff.mpr (Or.inl content)
  | some kind' =>
    cases kind' with
    | added =>
      cases row with
      | add line text => rfl
      | _ => exact absurd (painted.added kind) (old fun _ _ same => nomatch same)
    | deleted =>
      cases row with
      | delete line text => rfl
      | _ => exact absurd (painted.deleted kind) (new fun _ _ same => nomatch same)

theorem ne_nil_of_getElem? {lines : Lines} {index : Nat} {line : Bytes}
    (found : lines[index]? = some line) : lines ≠ [] := by
  rintro rfl
  cases found

/-- The rows of lines of one hunk. -/
theorem Presents.rows (painted : Painted all xs ys file paint) {i j i' j' : Nat}
    {rows done : List DiffRow} (shown : ShowsLines xs ys i' j' i j rows)
    (presents : Presents all reviewed file j done presented) (rest : List DiffRow)
    (whole : all = done ++ rows ++ rest) :
    let presented' := rows.foldl (fun presented row => presented.push ⟨row, paint row⟩) presented
    Presents all reviewed file j' (done ++ rows) presented' ∧
      (Closed presented ∨ rows.any isChanged = true → Closed presented') ∧
      presented'.previousHunkEnd = presented.previousHunkEnd := by
  induction rows generalizing i j done presented with
  | nil =>
    obtain ⟨rfl, rfl⟩ := shown
    rw [List.append_nil]
    refine ⟨presents, fun closed => ?_, rfl⟩
    rcases closed with closed | none
    · exact closed
    · cases none
  | cons row rows ih =>
    have here : all[done.length]? = some row := by
      rw [whole, List.append_assoc, List.getElem?_append_right (Nat.le_refl _), Nat.sub_self]
      rfl
    have whole : all = done ++ [row] ++ rows ++ rest := by
      rw [whole]
      simp
    rw [List.foldl_cons, show done ++ row :: rows = done ++ [row] ++ rows by simp]
    cases row with
    | context oldLine newLine text =>
      obtain ⟨⟨-, rfl, line, old, new, -⟩, shown⟩ := shown
      have visible := painted.visible presents.mode (.context oldLine (j + 1) text) rfl
        (fun _ => ne_nil_of_getElem? old) fun _ => ne_nil_of_getElem? new
      have bound := painted.size ▸ getElem?_bound new
      obtain ⟨next, closed, hunkEnd⟩ := presents.shown visible rfl here
        ⟨rfl, rfl, painted.tokens (.context oldLine (j + 1) text) j rfl bound⟩
      obtain ⟨last, closes, same⟩ := ih shown next whole
      exact ⟨last, fun _ => closes (Or.inl closed), same.trans hunkEnd⟩
    | delete oldLine text =>
      obtain ⟨⟨-, line, old, -⟩, shown⟩ := shown
      have visible := painted.visible presents.mode (.delete oldLine text) rfl
        (fun _ => ne_nil_of_getElem? old) fun other => absurd rfl (other _ _)
      obtain ⟨next, closed, hunkEnd⟩ := presents.shown visible rfl here rfl
      obtain ⟨last, closes, same⟩ := ih shown next whole
      exact ⟨last, fun _ => closes (Or.inl closed), same.trans hunkEnd⟩
    | add newLine text =>
      obtain ⟨⟨rfl, line, new, -⟩, shown⟩ := shown
      have visible := painted.visible presents.mode (.add (j + 1) text) rfl
        (fun other => absurd rfl (other _ _)) fun _ => ne_nil_of_getElem? new
      have bound := painted.size ▸ getElem?_bound new
      obtain ⟨next, closed, hunkEnd⟩ := presents.shown visible rfl here
        ⟨rfl, rfl, painted.tokens (.add (j + 1) text) j rfl bound⟩
      obtain ⟨last, closes, same⟩ := ih shown next whole
      exact ⟨last, fun _ => closes (Or.inl closed), same.trans hunkEnd⟩
    | metadata text =>
      have invisible : presented.isVisible (.metadata text) = false := by
        rw [PresentationRows.isVisible]
        cases presented.wholeFile with
        | none => rfl
        | some kind => cases kind <;> rfl
      obtain ⟨next, kept, hunkEnd⟩ := presents.hidden (paint (.metadata text)) invisible rfl rfl
      obtain ⟨last, closes, same⟩ := ih shown next whole
      refine ⟨last, fun closed => closes (closed.imp_left fun closed => ?_), same.trans hunkEnd⟩
      rw [Closed, kept]
      exact closed
    | fileHeader old new text => exact shown.elim
    | hunk _ _ _ _ => exact shown.elim
    | notice kind text => exact shown.elim

/-- Where the last hunk ended, counted from one; a file without lines has no last line. -/
def Ended (ys : Lines) (line : Nat) (presented : PresentationRows τ) : Prop :=
  presented.previousHunkEnd = none ∧ line = 0 ∨ presented.previousHunkEnd = some (line + 1) ∨
    ys = [] ∧ presented.previousHunkEnd = some 0

/-- The header of a hunk, and the unchanged lines before it. -/
theorem Presents.header (painted : Painted all xs ys file paint) {part : Section} {line i : Nat}
    {done : List DiffRow} (presents : Presents all reviewed file line done presented)
    (closed : Closed presented) (ended : Ended ys line presented)
    (kept : Kept xs ys i line part.around.before.start part.around.after.start)
    (le : part.around.after.start ≤ part.around.after.stop)
    (bound : part.around.after.stop ≤ ys.length)
    (sized : part.around.after.size = 0 → ys = []) (tokens : τ) :
    let presented' := presented.push ⟨part.header, tokens⟩
    Presents all reviewed file part.around.after.start (done ++ [part.header]) presented' ∧
      presented'.previousHunkEnd = some (headerStart part.around.after.start part.around.after.size +
        part.around.after.size) := by
  have reach := kept.le'
  have size : part.around.after.size = part.around.after.stop - part.around.after.start := rfl
  have gap : Presents all reviewed file part.around.after.start done
      (presented.pushGap (presented.previousHunkEnd.getD 1)
        (headerStart part.around.after.start part.around.after.size)) := by
    unfold headerStart
    split_ifs with empty
    · have none := sized empty
      rw [none, List.length_nil] at bound
      rw [PresentationRows.pushGap, if_neg (by omega)]
      rwa [show line = part.around.after.start by omega] at presents
    · have begins : presented.previousHunkEnd.getD 1 = line + 1 := by
        obtain ⟨first, rfl⟩ | next | ⟨none, -⟩ := ended
        · rw [first]
          rfl
        · rw [next]
          rfl
        · rw [none, List.length_nil] at bound
          omega
      rw [begins]
      exact presents.gap closed reach (painted.size ▸ (Nat.le_trans le bound))
  have invisible : presented.isVisible part.header = false := by
    rw [PresentationRows.isVisible]
    cases presented.wholeFile with
    | none => rfl
    | some kind => cases kind <;> rfl
  rw [PresentationRows.push]
  dsimp only
  rw [invisible, if_neg Bool.false_ne_true]
  refine ⟨⟨?_, gap.lines, gap.mode, gap.fits, gap.spaced, ?_, gap.tiles⟩, rfl⟩
  · exact congrArg (· ++ _) gap.source
  · rw [List.filter_append, ← gap.changed]
    exact (List.append_nil _).symm

theorem shownLines_le {i' j' i j : Nat} {rows : List DiffRow}
    (shown : ShowsLines xs ys i' j' i j rows) : j ≤ j' := by
  induction rows generalizing i j with
  | nil => exact Nat.le_of_eq shown.2
  | cons row rows ih =>
    cases row with
    | context oldLine newLine text => exact Nat.le_of_succ_le (ih shown.2)
    | delete oldLine text => exact ih shown.2
    | add newLine text => exact Nat.le_of_succ_le (ih shown.2)
    | metadata text => exact ih shown
    | fileHeader old new text => exact shown.elim
    | hunk _ _ _ _ => exact shown.elim
    | notice kind text => exact shown.elim

theorem shownSections_le {gap i line : Nat} {parts : List Section}
    (shown : ShowsSections xs ys gap i line parts) : line ≤ ys.length := by
  cases parts with
  | nil => exact shown.le'
  | cons part parts => exact Nat.le_trans shown.2.1.le' shown.2.1.bound'

/-- The hunks of a diff, one after another. -/
theorem Presents.sections (painted : Painted all xs ys file paint) {parts : List Section}
    {gap i line : Nat} {done : List DiffRow} (shown : ShowsSections xs ys gap i line parts)
    (changes : ∀ part ∈ parts, part.rows.any isChanged = true)
    (sized : ∀ part ∈ parts, part.around.after.size = 0 → ys = [])
    (presents : Presents all reviewed file line done presented) (closed : Closed presented)
    (ended : Ended ys line presented) (whole : all = done ++ parts.flatMap Section.all)
    (some_ : parts ≠ [] ∨ presented.previousHunkEnd ≠ none) :
    Presents all reviewed file file.length all ((parts.flatMap Section.all).foldl
      (fun presented row => presented.push ⟨row, paint row⟩) presented).finish := by
  induction parts generalizing gap i line done presented with
  | nil =>
    obtain rfl : all = done := whole.trans (List.append_nil _)
    have reach : line ≤ file.length := painted.size ▸ shownSections_le shown
    rw [List.flatMap_nil, List.foldl_nil, PresentationRows.finish]
    obtain ⟨none, -⟩ | last | ⟨none, last⟩ := ended
    · exact absurd none (some_.resolve_left (absurd rfl))
    · rw [last, presents.lines]
      exact presents.gap closed reach (Nat.le_refl _)
    · have empty : file.length = 0 := by rw [painted.size, none, List.length_nil]
      rw [last, presents.lines]
      dsimp only
      rw [PresentationRows.pushGap, if_pos (Nat.succ_pos _), gapLines, if_pos (Or.inl rfl)]
      rwa [show line = file.length by omega] at presents
  | cons part parts ih =>
    obtain ⟨change, changes⟩ := List.forall_mem_cons.mp changes
    obtain ⟨size, sized⟩ := List.forall_mem_cons.mp sized
    obtain ⟨-, kept, lines, shown⟩ := shown
    have le := shownLines_le lines
    have bound := shownSections_le shown
    obtain ⟨headed, hunkEnd⟩ := presents.header painted closed ended kept le bound size
      (paint part.header)
    rw [List.flatMap_cons] at whole ⊢
    rw [Section.all, List.cons_append] at whole ⊢
    rw [List.foldl_cons, List.foldl_append]
    obtain ⟨next, closes, same⟩ := headed.rows painted lines
      (parts.flatMap Section.all) (by rw [whole]; simp)
    rw [hunkEnd] at same
    refine ih shown changes sized next (closes (Or.inr change)) ?_ (by rw [whole]; simp) (Or.inr ?_)
    · unfold headerStart at same
      split_ifs at same with empty
      · have none := size empty
        rw [none, List.length_nil] at bound
        refine Or.inr (Or.inr ⟨none, same.trans (congrArg some ?_)⟩)
        omega
      · refine Or.inr (Or.inl (same.trans (congrArg some ?_)))
        have : part.around.after.size = part.around.after.stop - part.around.after.start := rfl
        omega
    · rw [same]
      exact Option.some_ne_none _

variable (paint) in
/-- What is said about a file stays out of sight. -/
theorem Presents.said {said done : List DiffRow} (plain : ∀ row ∈ said, row.isSaid = true)
    (presents : Presents all reviewed file 0 done presented) :
    let presented' := said.foldl (fun presented row => presented.push ⟨row, paint row⟩) presented
    Presents all reviewed file 0 (done ++ said) presented' ∧ presented'.rows = presented.rows ∧
      presented'.previousHunkEnd = presented.previousHunkEnd := by
  induction said generalizing done presented with
  | nil => exact ⟨(List.append_nil done).symm ▸ presents, rfl, rfl⟩
  | cons row said ih =>
    obtain ⟨own, plain⟩ := List.forall_mem_cons.mp plain
    have invisible : presented.isVisible row = false := by
      rw [PresentationRows.isVisible]
      cases presented.wholeFile with
      | none => cases row <;> first | rfl | cases own
      | some kind => cases kind <;> cases row <;> first | rfl | cases own
    have kept : isChanged row = false := by cases row <;> first | rfl | cases own
    obtain ⟨next, rows, hunkEnd⟩ := presents.hidden (paint row) invisible
      (DiffRow.isSaid_plain own).1 kept
    obtain ⟨last, same, ended⟩ := ih plain next
    rw [List.append_assoc] at last
    exact ⟨last, same.trans rows, ended.trans hunkEnd⟩

end Whole

/-- The presentation of a diff with the current file. -/
def presentationOf (painter : Painter τ) (rows : List DiffRow) (old : Option (List τ))
    (file : List τ) : DiffPresentation τ :=
  .new (assemble painter rows old (some file) true)

section New

variable {painter : Painter τ} {rows : List DiffRow} {old : Option (List τ)} {file : List τ}
  {before after : Lines} {parts : List Section}

theorem painted_assemble (diff : FileDiff before after rows parts)
    (size : file.length = after.length) :
    Painted rows before after file (rowTokens painter old (some file)) := by
  refine ⟨fun row line new bound => ?_, diff.added, diff.deleted, size⟩
  have found : lineTokens (some file) (line + 1) = some file[line] := by
    rw [lineTokens, if_neg (Nat.succ_ne_zero line), Option.bind_some, Nat.add_sub_cancel,
      List.getElem?_eq_getElem bound]
  rw [List.getElem?_eq_getElem bound]
  cases row <;> cases new <;> rw [rowTokens, found] <;> rfl

theorem presentationOf_eq : presentationOf painter rows old file =
    let started : PresentationRows τ := ⟨[], [], WholeFile.detect rows, some file, none⟩
    let presented := (rows.foldl (fun presented row =>
      presented.push ⟨row, rowTokens painter old (some file) row⟩) started).finish
    ⟨presented.source, presented.rows, WholeFile.detect rows, some (fileRowsOf file), .diff,
      ⟨[], []⟩⟩ := by
  have same : (rows.map fun diff => (⟨diff, rowTokens painter old (some file) diff⟩ :
      HighlightedRow τ)).map (·.diff) = rows := by
    rw [List.map_map]
    exact List.map_id rows
  rw [presentationOf, DiffPresentation.new, assemble]
  dsimp only
  rw [same, List.foldl_map]
  rfl

theorem presents_started (reviewed : List ReviewedHunk) :
    Presents rows reviewed file 0 [] ⟨[], [], WholeFile.detect rows, some file, none⟩ :=
  ⟨rfl, rfl, rfl, fun _ none => (nomatch none), trivial, rfl, rfl⟩

/-- A diff with hunks shows every line of the current file. -/
theorem presents_presentationOf (diff : FileDiff before after rows parts) (some_ : parts ≠ [])
    (size : file.length = after.length) (reviewed : List ReviewedHunk) :
    ∃ presented, Presents rows reviewed file file.length rows presented ∧
      presented.rows = (presentationOf painter rows old file).rows ∧
      presented.source = (presentationOf painter rows old file).source := by
  obtain ⟨said, whole, plain, shown⟩ := diff.shown
  have painted : Painted rows before after file (rowTokens painter old (some file)) :=
    painted_assemble diff size
  obtain ⟨first, hidden, hunkEnd⟩ :=
    (presents_started reviewed).said (rowTokens painter old (some file)) plain
  rw [List.nil_append] at first
  have last := first.sections painted shown diff.changes diff.sized (by
    intro row mem
    rw [hidden] at mem
    cases mem) (Or.inl ⟨hunkEnd, rfl⟩) whole (Or.inl some_)
  rw [← List.foldl_append, ← whole] at last
  rw [presentationOf_eq]
  exact ⟨_, last, rfl, rfl⟩

theorem based_presentationOf (diff : FileDiff before after rows parts) (some_ : parts ≠ [])
    (size : file.length = after.length) (reviewed : List ReviewedHunk) (from_ : Nat) :
    Based reviewed file from_ (presentationOf painter rows old file) ∧
      (presentationOf painter rows old file).source = rows ∧
      Tiles (rowSpan rows reviewed) file.length 0 (presentationOf painter rows old file).rows := by
  obtain ⟨presented, presents, shown, source⟩ :=
    @presents_presentationOf τ painter rows old file _ _ _ diff some_ size reviewed
  obtain ⟨presented', unfolded, shown', -⟩ :=
    @presents_presentationOf τ painter rows old file _ _ _ diff some_ size []
  have own := source.symm.trans presents.source
  refine ⟨⟨?_, ?_, ?_, ?_⟩, own, shown ▸ presents.tiles⟩
  · rw [own, ← shown]
    exact presents.fits
  · exact shown ▸ presents.spaced
  · rw [own, ← shown]
    exact presents.changed
  · intro hunk mem
    rw [← shown'] at mem
    exact absurd (unfolded.fits _ mem) (Nat.not_lt_zero hunk)

/-- A diff without hunks shows nothing. -/
theorem presentationOf_none (diff : FileDiff before after rows []) :
    (presentationOf painter rows old file).rows = [] ∧
      (presentationOf painter rows old file).source = rows := by
  obtain ⟨said, whole, plain, -⟩ := diff.shown
  rw [List.flatMap_nil, List.append_nil] at whole
  subst whole
  obtain ⟨last, hidden, hunkEnd⟩ :=
    (@presents_started τ _ file []).said (rowTokens painter old (some file)) plain
  rw [presentationOf_eq]
  dsimp only
  rw [PresentationRows.finish, hunkEnd]
  exact ⟨hidden, last.source⟩

end New

end ProgressiveReviewer.Presentation
