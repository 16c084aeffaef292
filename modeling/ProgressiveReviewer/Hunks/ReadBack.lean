import ProgressiveReviewer.Hunks.UnifiedRows

/-! Reading the lines of a hunk makes its rows (`review-repository/src/diff.rs`). -/

namespace ProgressiveReviewer.Hunks

open Library Library.Extent Marks
open Parsers

/-! ## Reading a hunk -/

/-- The parser's hunk when it has read up to a pair of positions. -/
def hunkAt (around : Change) (i j : Nat) : ActiveHunk :=
  ⟨headerStart around.before.start around.before.size, around.before.size,
    headerStart around.after.start around.after.size, around.after.size,
    i - around.before.start, j - around.after.start⟩

theorem lineChars_bytesOf (text : String) : lineChars (bytesOf text) = dropReturn text.toList := by
  rw [lineChars, bytesOf_eq, decode_encode]

theorem parse_hunkHeader (around : Change) (few : around.before.stop < lineLimit)
    (few' : around.after.stop < lineLimit) (le : around.before.start ≤ around.before.stop)
    (le' : around.after.start ≤ around.after.stop) :
    ActiveHunk.parse (hunkHeader around).toList =
      some (hunkAt around around.before.start around.after.start) := by
  have limit : lineLimit = 2 ^ 31 - 1 := rfl
  have small : ∀ {range : Range}, range.start ≤ range.stop → range.stop < lineLimit →
      ActiveHunk.parseRange (headerRange range.start range.size).toList =
        some (headerStart range.start range.size, range.size) := fun {range} _ _ => by
    have size : range.size = range.stop - range.start := rfl
    exact parseRange_headerRange (by unfold headerStart; split_ifs <;> omega) (by omega)
  have old : ActiveHunk.parseRange (oldRange around) = _ := small le few
  have new : ActiveHunk.parseRange (newRange around) = _ := small le' few'
  have mark : "@@ -".toList = ['@', '@', ' ', '-'] := rfl
  have leads : ∀ rest, ['@', '@', ' ', '-'].isPrefixOf (['@', '@', ' ', '-'] ++ rest) = true :=
    fun rest => List.isPrefixOf_iff_prefix.mpr ⟨rest, rfl⟩
  rw [toList_hunkHeader, mark]
  simp only [ActiveHunk.parse, if_pos (leads _), List.drop_left, Option.bind_eq_bind,
    Option.bind_some, splitOnce_oldRange, splitOnce_newRange, old, new]
  simp only [hunkAt, Nat.sub_self]

/-- A line under a hunk header is no header. -/
theorem push_row {parser : DiffParser} {hunk : ActiveHunk} (mode : ConflictMarkerMode)
    (active : parser.hunk = some hunk) {marker : Char} (noHeader : marker ≠ 'd') (noHunk : marker ≠ '@')
    (text : List Char) : parser.push mode (marker :: text) =
      ⟨parser.rows ++ [(hunk.push mode (marker :: text)).2],
        some (hunk.push mode (marker :: text)).1⟩ := by
  have header : "diff --git ".toList.isPrefixOf (marker :: text) = false := by
    have mark : "diff --git ".toList = 'd' :: "iff --git ".toList := rfl
    rw [mark]
    simp [List.isPrefixOf, Ne.symm noHeader]
  have none : ActiveHunk.parse (marker :: text) = none := by
    have apart : ['@', '@', ' ', '-'].isPrefixOf (marker :: text) = false := by
      simp [List.isPrefixOf, Ne.symm noHunk]
    simp [ActiveHunk.parse, apart]
  rw [DiffParser.push, header, if_neg Bool.false_ne_true, none, active]

theorem push_unended {rows : List DiffRow} {hunk : ActiveHunk} (mode : ConflictMarkerMode)
    (line : Bytes) : ((unendedRows line).map String.toList).foldl
      (fun parser line => DiffParser.push parser mode line) ⟨rows, some hunk⟩ =
      ⟨rows ++ (unendedRows line).map .metadata, some hunk⟩ := by
  unfold unendedRows
  split_ifs
  · exact congrArg (DiffParser.mk · (some hunk)) (List.append_nil rows).symm
  · have mark : "\\ No newline at end of file".toList =
        '\\' :: " No newline at end of file".toList := rfl
    rw [List.map_singleton, List.foldl_cons, List.foldl_nil, mark,
      push_row mode (Eq.refl (some hunk)) (by decide) (by decide), ← mark]
    rfl

/-- Read lines of a regular file's diff. -/
def reads (parser : DiffParser) (lines : List Bytes) : DiffParser :=
  (lines.map lineChars).foldl (fun parser line => DiffParser.push parser .historicalDiffRows line)
    parser

theorem reads_append (parser : DiffParser) (front rest : List Bytes) :
    reads parser (front ++ rest) = reads (reads parser front) rest := by
  rw [reads, List.map_append, List.foldl_append]
  rfl

theorem reads_cons (parser : DiffParser) (line : Bytes) (rest : List Bytes) :
    reads parser (line :: rest) =
      reads (parser.push .historicalDiffRows (lineChars line)) rest := rfl

/-- A line of a version makes its row, and its hunk goes on. -/
theorem reads_markedLine (marker : Char) (plain : marker.toNat < 128 ∧ marker ∉ ['\r', 'd', '@'])
    {hunk hunk' : ActiveHunk} {row : String → DiffRow}
    (pushes : ∀ text, hunk.push .historicalDiffRows (marker :: text) =
      (hunk', row (String.ofList (marker :: text)))) {line : Bytes} (own : IsLine line)
    (encoded : Encoded line) (rows : List DiffRow) :
    reads ⟨rows, some hunk⟩ (markedLine (UInt8.ofNat marker.toNat) line) =
      ⟨rows ++ lineRows row marker line, some hunk'⟩ := by
  simp only [List.mem_cons, List.not_mem_nil, or_false, not_or] at plain
  obtain ⟨ascii, noReturn, noHeader, noHunk⟩ := plain
  rw [reads, lineChars_markedLine ascii noReturn own encoded, List.map_cons, List.foldl_cons,
    rowText_eq, String.toList_ofList, push_row _ rfl noHeader noHunk, pushes, push_unended,
    lineRows, rowText_eq, List.append_assoc]
  rfl

section Lines

variable {around : Change} {i j : Nat}

theorem hunkAt_old (low : around.before.start ≤ i) (high : i < around.before.stop) :
    headerStart around.before.start around.before.size + (i - around.before.start) = i + 1 := by
  have size : around.before.size = around.before.stop - around.before.start := rfl
  rw [headerStart, if_neg (by omega)]
  omega

theorem hunkAt_new (low : around.after.start ≤ j) (high : j < around.after.stop) :
    headerStart around.after.start around.after.size + (j - around.after.start) = j + 1 := by
  have size : around.after.size = around.after.stop - around.after.start := rfl
  rw [headerStart, if_neg (by omega)]
  omega

/-- A line that is no other mark's makes the row of its marker. -/
theorem push_content {hunk : ActiveHunk} {marker : Char} (other : marker ≠ '\\') (text : List Char) :
    hunk.push .historicalDiffRows (marker :: text) =
      match (some marker : Option Char) with
      | some ' ' => (hunk.advance (some ' '), .context (hunk.oldStart + hunk.oldSeen)
          (hunk.newStart + hunk.newSeen) (String.ofList (marker :: text)))
      | some '-' => (hunk.advance (some '-'),
          .delete (hunk.oldStart + hunk.oldSeen) (String.ofList (marker :: text)))
      | some '+' => (hunk.advance (some '+'),
          .add (hunk.newStart + hunk.newSeen) (String.ofList (marker :: text)))
      | _ => (hunk, .notice .unsupported (String.ofList (marker :: text))) := by
  have mark : "\\ No newline at end of file".toList = '\\' :: " No newline at end of file".toList :=
    rfl
  have apart : "\\ No newline at end of file".toList.isPrefixOf (marker :: text) = false := by
    rw [mark]
    simp [List.isPrefixOf, Ne.symm other]
  rw [ActiveHunk.push, apart, if_neg Bool.false_ne_true, if_neg fun conflict => by cases conflict.1]
  rfl

variable {lines : Lines} (own : ∀ line ∈ lines, IsLine line ∧ Encoded line)
include own

theorem reads_context (low : around.before.start ≤ i) (low' : around.after.start ≤ j)
    (high : i + lines.length ≤ around.before.stop) (high' : j + lines.length ≤ around.after.stop)
    (rows : List DiffRow) : reads ⟨rows, some (hunkAt around i j)⟩ (markedLines 32 lines) =
      ⟨rows ++ contextRows i j lines,
        some (hunkAt around (i + lines.length) (j + lines.length))⟩ := by
  induction lines generalizing i j rows with
  | nil => simp [markedLines, reads, contextRows]
  | cons line lines ih =>
    obtain ⟨⟨first, encoded⟩, own⟩ := List.forall_mem_cons.mp own
    rw [List.length_cons] at high high'
    have pushes : ∀ text, (hunkAt around i j).push .historicalDiffRows (' ' :: text) =
        (hunkAt around (i + 1) (j + 1),
          .context (i + 1) (j + 1) (String.ofList (' ' :: text))) := by
      intro text
      rw [push_content (by decide)]
      simp only [ActiveHunk.advance, hunkAt, hunkAt_old low (by omega), hunkAt_new low' (by omega),
        Nat.sub_add_comm low, Nat.sub_add_comm low']
    have here := reads_markedLine ' ' (by decide) pushes first encoded rows
    rw [markedLines, List.flatMap_cons, reads_append]
    refine (congrArg (reads · _) here).trans ((ih own (by omega) (by omega) (by omega) (by omega)
      _).trans ?_)
    rw [contextRows, List.append_assoc, List.length_cons]
    simp only [Nat.add_comm, Nat.add_left_comm]

theorem reads_delete (low : around.before.start ≤ i)
    (high : i + lines.length ≤ around.before.stop) (rows : List DiffRow) :
    reads ⟨rows, some (hunkAt around i j)⟩ (markedLines 45 lines) =
      ⟨rows ++ deleteRows i lines, some (hunkAt around (i + lines.length) j)⟩ := by
  induction lines generalizing i rows with
  | nil => simp [markedLines, reads, deleteRows]
  | cons line lines ih =>
    obtain ⟨⟨first, encoded⟩, own⟩ := List.forall_mem_cons.mp own
    rw [List.length_cons] at high
    have pushes : ∀ text, (hunkAt around i j).push .historicalDiffRows ('-' :: text) =
        (hunkAt around (i + 1) j, .delete (i + 1) (String.ofList ('-' :: text))) := by
      intro text
      rw [push_content (by decide)]
      simp only [ActiveHunk.advance, hunkAt, hunkAt_old low (by omega), Nat.sub_add_comm low]
    have here := reads_markedLine '-' (by decide) pushes first encoded rows
    rw [markedLines, List.flatMap_cons, reads_append]
    refine (congrArg (reads · _) here).trans ((ih own (by omega) (by omega) _).trans ?_)
    rw [deleteRows, List.append_assoc, List.length_cons]
    simp only [Nat.add_comm, Nat.add_left_comm]

theorem reads_add (low : around.after.start ≤ j) (high : j + lines.length ≤ around.after.stop)
    (rows : List DiffRow) : reads ⟨rows, some (hunkAt around i j)⟩ (markedLines 43 lines) =
      ⟨rows ++ addRows j lines, some (hunkAt around i (j + lines.length))⟩ := by
  induction lines generalizing j rows with
  | nil => simp [markedLines, reads, addRows]
  | cons line lines ih =>
    obtain ⟨⟨first, encoded⟩, own⟩ := List.forall_mem_cons.mp own
    rw [List.length_cons] at high
    have pushes : ∀ text, (hunkAt around i j).push .historicalDiffRows ('+' :: text) =
        (hunkAt around i (j + 1), .add (j + 1) (String.ofList ('+' :: text))) := by
      intro text
      rw [push_content (by decide)]
      simp only [ActiveHunk.advance, hunkAt, hunkAt_new low (by omega), Nat.sub_add_comm low]
    have here := reads_markedLine '+' (by decide) pushes first encoded rows
    rw [markedLines, List.flatMap_cons, reads_append]
    refine (congrArg (reads · _) here).trans ((ih own (by omega) (by omega) _).trans ?_)
    rw [addRows, List.append_assoc, List.length_cons]
    simp only [Nat.add_comm, Nat.add_left_comm]

end Lines

/-- A finished hunk leaves no notice. -/
theorem finish_hunkAt (around : Change) (rows : List DiffRow) :
    (DiffParser.mk rows (some (hunkAt around around.before.stop around.after.stop))).finishHunk =
      ⟨rows, none⟩ := by
  have complete : (hunkAt around around.before.stop around.after.stop).isComplete = true := by
    rw [ActiveHunk.isComplete, Bool.and_eq_true]
    exact ⟨decide_eq_true rfl, decide_eq_true rfl⟩
  simp [DiffParser.finishHunk, complete]

section Frames

variable {xs ys : Lines} (own : ∀ line ∈ xs, IsLine line ∧ Encoded line)
  (own' : ∀ line ∈ ys, IsLine line ∧ Encoded line)
include own own'

/-- Reading the lines of a hunk makes its rows and counts its lines. -/
theorem reads_body {around : Change} {i j : Nat} {changes : List Change}
    (body : Body xs ys i j changes around.before.stop around.after.stop)
    (low : around.before.start ≤ i) (low' : around.after.start ≤ j) (rows : List DiffRow) :
    reads ⟨rows, some (hunkAt around i j)⟩ (bodyLines xs ys around.before.stop i changes) =
      ⟨rows ++ bodyRows xs ys around.before.stop i j changes,
        some (hunkAt around around.before.stop around.after.stop)⟩ := by
  have inside : ∀ {lines : Lines}, (∀ line ∈ lines, IsLine line ∧ Encoded line) → ∀ range : Range,
      ∀ line ∈ range.cut lines, IsLine line ∧ Encoded line := fun own _ line mem =>
    own line (List.mem_of_mem_drop (List.mem_of_mem_take mem))
  induction changes generalizing i j rows with
  | nil =>
    have size : (cut xs ⟨i, around.before.stop⟩).length = around.before.stop - i :=
      cut_length xs ⟨i, around.before.stop⟩ body.bound
    have := body.le
    have := body.shift
    rw [bodyLines, bodyRows, reads_context (inside own _) low low' (by omega) (by omega), size,
      Nat.add_sub_cancel' body.le, show j + (around.before.stop - i) = around.after.stop by omega]
  | cons change changes ih =>
    obtain ⟨kept, le, le', bound, bound', -, body⟩ := body
    have bounds := body.bounds
    have size : (cut xs ⟨i, change.before.start⟩).length = change.before.start - i :=
      cut_length xs ⟨i, change.before.start⟩ kept.bound
    have removed : (change.before.cut xs).length = change.before.stop - change.before.start :=
      cut_length xs change.before bound
    have added : (change.after.cut ys).length = change.after.stop - change.after.start :=
      cut_length ys change.after bound'
    have := kept.le
    have := kept.shift
    rw [bodyLines, bodyRows, reads_append, reads_append, reads_append,
      reads_context (inside own _) low low' (by omega) (by omega), size,
      Nat.add_sub_cancel' kept.le, show j + (change.before.start - i) = change.after.start by omega,
      reads_delete (inside own _) (by omega) (by omega), removed, Nat.add_sub_cancel' le,
      reads_add (inside own' _) (by omega) (by omega), added, Nat.add_sub_cancel' le',
      ih body (by omega) (by omega)]
    simp only [List.append_assoc]

/-- Reading the hunks makes their rows. -/
theorem reads_frames {frames : List Frame} {gap i j : Nat} (framed : Framed xs ys gap i j frames)
    (few : xs.length < lineLimit) (few' : ys.length < lineLimit) (parser : DiffParser) :
    (reads parser (frames.flatMap (frameLines xs ys))).finishHunk.rows =
      parser.finishHunk.rows ++ (frames.map (frameSection xs ys)).flatMap Section.all := by
  induction frames generalizing gap i j parser with
  | nil => exact (List.append_nil _).symm
  | cons frame frames ih =>
    obtain ⟨-, -, -, body, framed⟩ := framed
    have bounds := body.bounds
    have parsed := parse_hunkHeader frame.around (by omega) (by omega) bounds.1 bounds.2.1
    have chars : lineChars (bytesOf (hunkHeader frame.around)) = (hunkHeader frame.around).toList := by
      have last : (hunkHeader frame.around).toList.getLast? = some '@' := by
        refine List.getLast?_eq_some_iff.mpr ⟨"@@ -".toList ++ (oldRange frame.around ++
          ' ' :: (['+'] ++ (newRange frame.around ++ [' ', '@']))), ?_⟩
        rw [toList_hunkHeader]
        simp
      rw [lineChars_bytesOf, dropReturn, stripLast, last]
      rfl
    have header : "diff --git ".toList.isPrefixOf (hunkHeader frame.around).toList = false := by
      rw [toList_hunkHeader]
      rfl
    have started : parser.push .historicalDiffRows (hunkHeader frame.around).toList =
        ⟨parser.finishHunk.rows ++ [(frameSection xs ys frame).header],
          some (hunkAt frame.around frame.around.before.start frame.around.after.start)⟩ := by
      rw [DiffParser.push, header, if_neg Bool.false_ne_true, parsed]
      rfl
    rw [List.flatMap_cons, reads_append, frameLines, reads_cons, chars, started,
      reads_body own own' body (Nat.le_refl _) (Nat.le_refl _), ih framed, finish_hunkAt,
      List.map_cons, List.flatMap_cons, List.append_assoc, List.append_assoc]
    rfl

end Frames

theorem dropReturn_append {front : List Char} (clean : '\r' ∉ front) (rest : List Char) :
    dropReturn (front ++ rest) = front ++ dropReturn rest := by
  induction front with
  | nil => rfl
  | cons char front ih =>
    obtain ⟨other, clean⟩ := not_or.mp (mt List.mem_cons.mpr clean)
    rw [List.cons_append, dropReturn_cons (Ne.symm other), ih clean]
    rfl

/-- What is said before the hunks. -/
theorem reads_paths (path : String) (file : ChangedFile) (lines : List Bytes) :
    ∃ rows, reads ⟨[], none⟩ (pathLines path ++ lines) = reads ⟨rows, none⟩ lines ∧
      rows.map (withPaths file) = pathRows path file := by
  have named : ∀ mark ∈ ["diff --git a/", "--- a/", "+++ b/"], ∀ text : String,
      dropReturn (mark ++ text).toList = mark.toList ++ dropReturn text.toList := by
    have plain : ∀ mark ∈ ["diff --git a/", "--- a/", "+++ b/"], '\r' ∉ mark.toList := by decide
    intro mark mem text
    rw [String.toList_append, dropReturn_append (plain mark mem)]
  refine ⟨[.fileHeader none none
      (String.ofList (dropReturn ("diff --git a/" ++ path ++ " b/" ++ path).toList)),
    .metadata (String.ofList (dropReturn ("--- a/" ++ path).toList)),
    .metadata (String.ofList (dropReturn ("+++ b/" ++ path).toList))], ?_, rfl⟩
  simp only [pathLines, String.append_assoc, List.cons_append, List.nil_append, reads_cons,
    lineChars_bytesOf]
  rw [named "diff --git a/" (by simp), named "--- a/" (by simp), named "+++ b/" (by simp)]
  rfl

end ProgressiveReviewer.Hunks
