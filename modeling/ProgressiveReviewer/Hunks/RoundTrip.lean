import ProgressiveReviewer.Hunks.ReadBack

/-! The program's own diffs, read back: their rows, their hunks and the counts of changed lines. -/

namespace ProgressiveReviewer.Hunks

open Library Library.Extent Marks
open Parsers

/-! ## Counting changed lines -/

def DiffRow.isAdd : DiffRow → Bool
  | .add _ _ => true
  | _ => false

def DiffRow.isDelete : DiffRow → Bool
  | .delete _ _ => true
  | _ => false

/-- What has been counted so far, with the added and removed lines of some rows. -/
def counted (statistics : DiffStatistics) (rows : List DiffRow) : DiffStatistics :=
  ⟨statistics.linesAdded + rows.countP DiffRow.isAdd,
    statistics.linesRemoved + rows.countP DiffRow.isDelete⟩

theorem counted_append (statistics : DiffStatistics) (front rest : List DiffRow) :
    counted statistics (front ++ rest) = counted (counted statistics front) rest := by
  simp [counted, Nat.add_assoc]

theorem counted_said (statistics : DiffStatistics) (texts : List String) :
    counted statistics (texts.map .metadata) = statistics := by
  have none : ∀ own : DiffRow → Bool, (∀ text, own (.metadata text) = false) →
      (texts.map DiffRow.metadata).countP own = 0 := by
    intro own no
    rw [List.countP_eq_zero]
    intro row mem
    obtain ⟨text, -, rfl⟩ := List.mem_map.mp mem
    exact Bool.eq_false_iff.mp (no text)
  simp [counted, none DiffRow.isAdd fun _ => rfl, none DiffRow.isDelete fun _ => rfl]

theorem read_content {marker : UInt8} (plain : marker ≠ 100 ∧ marker ≠ 64) (text : Bytes)
    (statistics : DiffStatistics) : DiffStatistics.read (true, statistics) (marker :: text) =
      (true, if marker = 43 then { statistics with linesAdded := statistics.linesAdded + 1 }
        else if marker = 45 then { statistics with linesRemoved := statistics.linesRemoved + 1 }
        else statistics) := by
  have marks : bytesOf "diff --git " = 100 :: (bytesOf "diff --git ").tail ∧
      bytesOf "@@ " = 64 :: (bytesOf "@@ ").tail := by decide
  have header : (bytesOf "diff --git ").isPrefixOf (marker :: text) = false := by
    rw [marks.1]
    simp [List.isPrefixOf, Ne.symm plain.1]
  have hunk : (bytesOf "@@ ").isPrefixOf (marker :: text) = false := by
    rw [marks.2]
    simp [List.isPrefixOf, Ne.symm plain.2]
  simp only [DiffStatistics.read, header, hunk]
  by_cases added : marker = 43
  · simp [added]
  · by_cases removed : marker = 45 <;> simp [added, removed]

/-- A line of a version counts as its row does. -/
theorem read_markedLine {marker : Char} {row : String → DiffRow}
    (own : (marker = ' ' ∧ ∃ i j, row = .context i j) ∨ (marker = '-' ∧ ∃ i, row = .delete i) ∨
      (marker = '+' ∧ ∃ j, row = .add j)) (line : Bytes) (statistics : DiffStatistics) :
    (markedLine (UInt8.ofNat marker.toNat) line).foldl DiffStatistics.read (true, statistics) =
      (true, counted statistics (lineRows row marker line)) := by
  have unended : ∀ statistics, DiffStatistics.read (true, statistics) noNewline = (true, statistics) := by
    have mark : noNewline = 92 :: noNewline.tail := by decide
    intro statistics
    rw [mark, read_content (by decide)]
    rfl
  have rest : counted statistics (lineRows row marker line) =
      counted statistics [row (rowText marker (some line))] := by
    rw [lineRows, ← List.singleton_append, counted_append, counted_said]
  have read : ∀ text, DiffStatistics.read (true, statistics) (UInt8.ofNat marker.toNat :: text) =
      (true, counted statistics [row (rowText marker (some line))]) := by
    intro text
    rcases own with ⟨rfl, _, _, rfl⟩ | ⟨rfl, _, rfl⟩ | ⟨rfl, _, rfl⟩ <;>
      exact read_content (by decide) text statistics
  rw [rest]
  unfold markedLine
  split_ifs
  · exact read _
  · rw [List.foldl_cons, read, List.foldl_cons, List.foldl_nil, unended]

theorem read_context (i j : Nat) (lines : Lines) (statistics : DiffStatistics) :
    (markedLines 32 lines).foldl DiffStatistics.read (true, statistics) =
      (true, counted statistics (contextRows i j lines)) := by
  induction lines generalizing i j statistics with
  | nil => rfl
  | cons line lines ih =>
    have here := read_markedLine (.inl ⟨rfl, i + 1, j + 1, rfl⟩) line statistics
    rw [markedLines, List.flatMap_cons, List.foldl_append, contextRows, counted_append]
    exact (congrArg ((markedLines 32 lines).foldl DiffStatistics.read ·) here).trans (ih ..)

theorem read_delete (i : Nat) (lines : Lines) (statistics : DiffStatistics) :
    (markedLines 45 lines).foldl DiffStatistics.read (true, statistics) =
      (true, counted statistics (deleteRows i lines)) := by
  induction lines generalizing i statistics with
  | nil => rfl
  | cons line lines ih =>
    have here := read_markedLine (.inr (.inl ⟨rfl, i + 1, rfl⟩)) line statistics
    rw [markedLines, List.flatMap_cons, List.foldl_append, deleteRows, counted_append]
    exact (congrArg ((markedLines 45 lines).foldl DiffStatistics.read ·) here).trans (ih ..)

theorem read_add (j : Nat) (lines : Lines) (statistics : DiffStatistics) :
    (markedLines 43 lines).foldl DiffStatistics.read (true, statistics) =
      (true, counted statistics (addRows j lines)) := by
  induction lines generalizing j statistics with
  | nil => rfl
  | cons line lines ih =>
    have here := read_markedLine (.inr (.inr ⟨rfl, j + 1, rfl⟩)) line statistics
    rw [markedLines, List.flatMap_cons, List.foldl_append, addRows, counted_append]
    exact (congrArg ((markedLines 43 lines).foldl DiffStatistics.read ·) here).trans (ih ..)

theorem read_body (xs ys : Lines) (stop i j : Nat) (changes : List Change)
    (statistics : DiffStatistics) :
    (bodyLines xs ys stop i changes).foldl DiffStatistics.read (true, statistics) =
      (true, counted statistics (bodyRows xs ys stop i j changes)) := by
  induction changes generalizing i j statistics with
  | nil => exact read_context i j _ statistics
  | cons change changes ih =>
    simp only [bodyLines, bodyRows, List.foldl_append, counted_append, read_context i j,
      read_delete change.before.start, read_add change.after.start]
    exact ih ..

theorem read_frames (xs ys : Lines) (frames : List Frame) (inHunk : Bool)
    (statistics : DiffStatistics) :
    ((frames.flatMap (frameLines xs ys)).foldl DiffStatistics.read (inHunk, statistics)).2 =
      counted statistics ((frames.map (frameSection xs ys)).flatMap Section.all) := by
  induction frames generalizing inHunk statistics with
  | nil => rfl
  | cons frame frames ih =>
    have header : DiffStatistics.read (inHunk, statistics) (bytesOf (hunkHeader frame.around)) =
        (true, statistics) := by
      have leads : ∃ rest, bytesOf (hunkHeader frame.around) = bytesOf "@@ -" ++ rest := by
        refine ⟨encode (oldRange frame.around ++ ' ' :: (['+'] ++ (newRange frame.around ++
          ' ' :: (['@', '@'] ++ [])))), ?_⟩
        rw [bytesOf_eq, toList_hunkHeader, encode_append, bytesOf_eq]
      obtain ⟨rest, leads⟩ := leads
      have mark : bytesOf "@@ -" = [64, 64, 32, 45] := by decide
      rw [leads, mark]
      rfl
    rw [List.flatMap_cons, List.foldl_append, frameLines, List.foldl_cons, header,
      read_body xs ys _ _ frame.around.after.start, ih, List.map_cons, List.flatMap_cons,
      counted_append]
    rfl

/-! ## The whole diff -/

/-- Every line of a version is under the parser's limit. -/
def ShortLines (text : Bytes) : Prop :=
  ∀ line ∈ Lines.new text, (lineBody line).length < maxLineBytes

instance (text : Bytes) : Decidable (ShortLines text) :=
  inferInstanceAs (Decidable (∀ line ∈ Lines.new text, (lineBody line).length < maxLineBytes))

/-- Lines a parser takes: encoded text under its limit. -/
def Readable (line : Bytes) : Prop := Encoded line ∧ line.length ≤ maxLineBytes

theorem encoded_lines (text : String) : ∀ line ∈ Lines.new (bytesOf text), Encoded line := by
  intro line mem
  have lines : Lines.new (bytesOf text) = (splitInclusive (· == '\n') text.toList).map encode := by
    rw [bytesOf_eq]
    exact splitInclusive_encode text.toList
  rw [lines] at mem
  obtain ⟨chars, -, rfl⟩ := List.mem_map.mp mem
  exact ⟨chars, rfl⟩

theorem readable_markedLines (marker : Char) (ascii : marker.toNat < 128) {lines : Lines}
    (own : ∀ line ∈ lines, IsLine line ∧ Encoded line)
    (short : ∀ line ∈ lines, (lineBody line).length < maxLineBytes) :
    ∀ line ∈ markedLines (UInt8.ofNat marker.toNat) lines, Readable line := by
  have marked : ∀ {body : Bytes}, Encoded body → Encoded (UInt8.ofNat marker.toNat :: body) := by
    rintro _ ⟨chars, rfl⟩
    exact ⟨marker :: chars, by rw [encode_cons, utf8EncodeChar_ascii ascii, List.singleton_append]⟩
  intro line mem
  obtain ⟨text, held, mem⟩ := List.mem_flatMap.mp mem
  obtain ⟨isLine, encoded⟩ := own text held
  have small := short text held
  rcases isLine.cases with ⟨body, rfl, -, shown⟩ | ⟨-, bare, shown⟩
  · rw [lineBody, stripSuffix_concat, Option.getD_some] at small
    obtain ⟨chars, same⟩ := encoded
    obtain ⟨chars', -, rfl⟩ := encode_eq_concat newline_ascii same
    rw [shown, List.mem_singleton] at mem
    rw [mem]
    exact ⟨marked ⟨chars', rfl⟩, small⟩
  · have whole : lineBody text = text := by
      rw [lineBody, stripSuffix, if_neg]
      · rfl
      · intro last
        rw [last] at bare
        exact absurd bare (by decide)
    rw [whole] at small
    rw [shown] at mem
    rcases List.mem_cons.mp mem with rfl | mem
    · exact ⟨marked encoded, small⟩
    · rw [List.mem_singleton.mp mem]
      exact ⟨encoded_bytesOf _, by decide⟩

theorem length_encode (chars : List Char) : (encode chars).length ≤ 4 * chars.length := by
  induction chars with
  | nil => exact Nat.zero_le _
  | cons char chars ih =>
    have one := Char.utf8Size_le_four char
    rw [encode_cons, List.length_append, String.length_utf8EncodeChar, List.length_cons]
    omega

theorem length_headerRange {start count : Nat} (few : start < 2 ^ 31) (few' : count < 2 ^ 31) :
    (headerRange start count).toList.length ≤ 21 := by
  have digits : ∀ number, number < 10 ^ 10 → (Nat.toDigits 10 number).length ≤ 10 := fun _ small =>
    (Nat.length_toDigits_le_iff (by decide) (by decide)).mpr small
  have first := digits (headerStart start count) (by unfold headerStart; split_ifs <;> omega)
  have second := digits count (by omega)
  rw [toList_headerRange]
  split_ifs <;> simp only [List.length_append, List.length_cons, List.length_nil] <;> omega

theorem readable_hunkHeader {around : Change} (few : around.before.stop < lineLimit)
    (few' : around.after.stop < lineLimit) (le : around.before.start ≤ around.before.stop)
    (le' : around.after.start ≤ around.after.stop) : Readable (bytesOf (hunkHeader around)) := by
  have limit : lineLimit = 2 ^ 31 - 1 := rfl
  have old : (oldRange around).length ≤ 21 := length_headerRange (by omega) (by omega)
  have new : (newRange around).length ≤ 21 := length_headerRange (by omega) (by omega)
  refine ⟨encoded_bytesOf _, ?_⟩
  have whole := length_encode (hunkHeader around).toList
  rw [← bytesOf_eq, toList_hunkHeader] at whole
  simp only [List.length_append, List.length_cons, List.length_nil] at whole
  have mark : "@@ -".toList.length = 4 := rfl
  have most : maxLineBytes = 16777216 := rfl
  omega

/-- A parser takes every line of the diff. -/
theorem readable_bodyLines {xs ys : Lines} (own : ∀ line ∈ xs, IsLine line ∧ Encoded line)
    (own' : ∀ line ∈ ys, IsLine line ∧ Encoded line)
    (short : ∀ line ∈ xs, (lineBody line).length < maxLineBytes)
    (short' : ∀ line ∈ ys, (lineBody line).length < maxLineBytes) (stop i : Nat)
    (changes : List Change) : ∀ line ∈ bodyLines xs ys stop i changes, Readable line := by
  have inside : ∀ {lines : Lines} {own : Bytes → Prop}, (∀ line ∈ lines, own line) →
      ∀ range : Range, ∀ line ∈ range.cut lines, own line := fun own _ line mem =>
    own line (List.mem_of_mem_drop (List.mem_of_mem_take mem))
  have kept : ∀ range : Range, ∀ line ∈ markedLines 32 (range.cut xs), Readable line := fun range =>
    readable_markedLines ' ' (by decide) (inside own range) (inside short range)
  have removed : ∀ range : Range, ∀ line ∈ markedLines 45 (range.cut xs), Readable line :=
    fun range =>
    readable_markedLines '-' (by decide) (inside own range) (inside short range)
  have added : ∀ range : Range, ∀ line ∈ markedLines 43 (range.cut ys), Readable line := fun range =>
    readable_markedLines '+' (by decide) (inside own' range) (inside short' range)
  induction changes generalizing i with
  | nil => exact kept _
  | cons change changes ih =>
    simp only [bodyLines, List.forall_mem_append]
    exact ⟨⟨⟨kept _, removed _⟩, added _⟩, ih _⟩

theorem readable_frames {xs ys : Lines} {gap i j : Nat} {frames : List Frame}
    (own : ∀ line ∈ xs, IsLine line ∧ Encoded line) (own' : ∀ line ∈ ys, IsLine line ∧ Encoded line)
    (short : ∀ line ∈ xs, (lineBody line).length < maxLineBytes)
    (short' : ∀ line ∈ ys, (lineBody line).length < maxLineBytes)
    (framed : Framed xs ys gap i j frames) (few : xs.length < lineLimit)
    (few' : ys.length < lineLimit) :
    ∀ line ∈ frames.flatMap (frameLines xs ys), Readable line := by
  induction frames generalizing gap i j with
  | nil => exact fun _ mem => (List.not_mem_nil mem).elim
  | cons frame frames ih =>
    obtain ⟨-, -, -, body, framed⟩ := framed
    have bounds := body.bounds
    rw [List.flatMap_cons, List.forall_mem_append, frameLines, List.forall_mem_cons]
    exact ⟨⟨readable_hunkHeader (by omega) (by omega) bounds.1 bounds.2.1,
      readable_bodyLines own own' short short' _ _ _⟩, ih framed⟩

/-- A path is shown on one line. -/
theorem displayPath_plain (path : RepoPath) : '\n' ∉ (displayPath path).toList := by
  have bytes : ∀ n < 256, '\n' ∉ escapeAscii (UInt8.ofNat n) := by decide +kernel
  have ascii : ∀ byte, '\n' ∉ escapeAscii byte := fun byte => by
    have own := bytes byte.toNat byte.toNat_lt
    rwa [UInt8.ofNat_toNat] at own
  have controls : ∀ n < 160, '\n' ∉ Nat.toDigits 16 n := by decide +kernel
  have chars : ∀ char, '\n' ∉ escapeChar char := by
    intro char mem
    unfold escapeChar at mem
    split_ifs at mem with small control
    · exact ascii _ mem
    · have := controls char.toNat control
      simp_all
    · rw [List.mem_singleton] at mem
      exact small (mem ▸ by decide)
  unfold displayPath
  split <;> rw [String.toList_ofList] <;> intro mem <;>
    obtain ⟨own, -, mem⟩ := List.mem_flatMap.mp mem
  · exact chars own mem
  · exact ascii own mem

/-- A file whose diff shows its lines. -/
def Regular (file : ChangedFile) : Prop :=
  file.oldKind ∈ [FileKind.file, .absent] ∧ file.newKind ∈ [FileKind.file, .absent]

instance (file : ChangedFile) : Decidable (Regular file) :=
  inferInstanceAs (Decidable (_ ∧ _))

theorem withPaths_sections {xs ys : Lines} {gap i j : Nat} {parts : List Section}
    (shown : ShowsSections xs ys gap i j parts) (file : ChangedFile) :
    (parts.flatMap Section.all).map (withPaths file) = parts.flatMap Section.all := by
  have lines : ∀ {i' j' i j : Nat} {rows : List DiffRow}, ShowsLines xs ys i' j' i j rows →
      rows.map (withPaths file) = rows := by
    intro i' j' i j rows shown
    induction rows generalizing i j with
    | nil => rfl
    | cons row rows ih =>
      cases row <;> first | exact shown.elim | skip
      · exact congrArg _ (ih shown)
      all_goals exact congrArg _ (ih shown.2)
  induction parts generalizing gap i j with
  | nil => rfl
  | cons part parts ih =>
    obtain ⟨-, -, shown, rest⟩ := shown
    rw [List.flatMap_cons, List.map_append, ih rest, Section.all, List.map_cons, lines shown]
    rfl

theorem parseFileDiff_regular {file : ChangedFile} (regular : Regular file) (output : Bytes) :
    parseFileDiff output file =
      (DiffParser.parseWithConflictMarkers output .historicalDiffRows).map (withPaths file) := by
  obtain ⟨oldKind, newKind⟩ := regular
  simp only [List.mem_cons, List.not_mem_nil, or_false] at oldKind newKind
  unfold parseFileDiff
  rcases oldKind with old | old <;> rcases newKind with new | new <;> simp [old, new]

theorem read_blank (counted : Bool × DiffStatistics) : DiffStatistics.read counted [] = counted := by
  obtain ⟨inHunk, statistics⟩ := counted
  have marks : bytesOf "diff --git " = 100 :: (bytesOf "diff --git ").tail ∧
      bytesOf "@@ " = 64 :: (bytesOf "@@ ").tail := by decide
  rw [DiffStatistics.read, marks.1, marks.2]
  simp [List.isPrefixOf]

/-- The lines of a diff count what its rows show. -/
theorem read_unifiedLines (d : Differ) (path : String) (file : ChangedFile) (before after : Bytes) :
    ((unifiedLines d path before after).foldl DiffStatistics.read (false, .zero)).2 =
      counted .zero (unifiedRows d path file before after) := by
  have named : ∀ statistics, (pathLines path).foldl DiffStatistics.read (false, statistics) =
      (false, statistics) := by
    intro statistics
    have marks : bytesOf "diff --git a/" = 100 :: (bytesOf "diff --git a/").tail ∧
        bytesOf "--- a/" = 45 :: (bytesOf "--- a/").tail ∧
        bytesOf "+++ b/" = 43 :: (bytesOf "+++ b/").tail := by decide
    have outside : ∀ {byte : UInt8}, byte ≠ 64 → ∀ text : Bytes,
        DiffStatistics.read (false, statistics) (byte :: text) = (false, statistics) := by
      intro byte other text
      have mark : bytesOf "@@ " = 64 :: (bytesOf "@@ ").tail := by decide
      rw [DiffStatistics.read, mark]
      simp [List.isPrefixOf, Ne.symm other]
    simp only [pathLines, String.append_assoc, bytesOf_append, List.foldl_cons, List.foldl_nil]
    rw [marks.1, marks.2.1, marks.2.2, List.cons_append, outside (by decide), List.cons_append,
      outside (by decide), List.cons_append, outside (by decide)]
  unfold unifiedLines unifiedRows
  dsimp only
  split_ifs
  · rfl
  · rw [List.foldl_append, named, read_frames, counted_append]
    rfl

/-- The program reads its own diffs back. -/
theorem parseFileDiff_unifiedDiff {d : Differ} (valid : d.Valid) {path : String}
    (plain : '\n' ∉ path.toList) (named : ∀ line ∈ pathLines path, line.length ≤ maxLineBytes)
    {file : ChangedFile} (regular : Regular file) {a b : String} (short : ShortLines (bytesOf a))
    (short' : ShortLines (bytesOf b)) (few : (Lines.new (bytesOf a)).length < lineLimit)
    (few' : (Lines.new (bytesOf b)).length < lineLimit) :
    let diff := unifiedDiff d path (bytesOf a) (bytesOf b)
    let rows := unifiedRows d path file (bytesOf a) (bytesOf b)
    parseFileDiff diff file = rows ∧
      ShowsDiff (Lines.new (bytesOf a)) (Lines.new (bytesOf b)) rows ∧
      (∀ row ∈ rows, row.isNotice = false) ∧
      List.Forall₂ GroupHunk (hunkGroups (d.changes (bytesOf a) (bytesOf b))) (openHunks rows) ∧
      DiffStatistics.fromUnifiedDiff diff =
        ⟨rows.countP DiffRow.isAdd, rows.countP DiffRow.isDelete⟩ := by
  have own : ∀ text : String, ∀ line ∈ Lines.new (bytesOf text), IsLine line ∧ Encoded line :=
    fun text line mem => ⟨isLine_of_mem (Lines.lineList_new _) mem, encoded_lines text line mem⟩
  have framed := framed_frames (valid (bytesOf a) (bytesOf b))
  have shows_ := shows_unifiedRows valid path file (bytesOf a) (bytesOf b)
  have clean := clean_unifiedLines plain (d := d) (bytesOf a) (bytesOf b)
  have readable : ∀ line ∈ unifiedLines d path (bytesOf a) (bytesOf b), Readable line := by
    unfold unifiedLines
    dsimp only
    split_ifs
    · exact fun _ mem => (List.not_mem_nil mem).elim
    · rw [List.forall_mem_append]
      refine ⟨fun line mem => ⟨?_, named line mem⟩,
        readable_frames (own a) (own b) short short' framed few few'⟩
      simp only [pathLines, List.mem_cons, List.not_mem_nil, or_false] at mem
      rcases mem with rfl | rfl | rfl <;> exact encoded_bytesOf _
  refine ⟨?_, shows_, shows_.noNotice, openHunks_unifiedRows valid path file _ _, ?_⟩
  · have parsed := parse_closeAll .historicalDiffRows clean (fun line mem => (readable line mem).1)
      fun line mem => (readable line mem).2
    rw [← unifiedDiff_eq valid] at parsed
    rw [parseFileDiff_regular regular, parsed]
    unfold unifiedLines unifiedRows
    dsimp only
    split_ifs
    · rfl
    · obtain ⟨rows, said, paths⟩ := reads_paths path file
        ((frames (Lines.new (bytesOf a)) (d.changes (bytesOf a) (bytesOf b))).flatMap
          (frameLines (Lines.new (bytesOf a)) (Lines.new (bytesOf b))))
      have hunks := reads_frames (own a) (own b) framed few few' ⟨rows, none⟩
      rw [← said] at hunks
      refine (congrArg (List.map (withPaths file)) hunks).trans ?_
      rw [List.map_append, withPaths_sections (shows_frames framed)]
      exact congrArg (· ++ _) paths
  · have parts : (unifiedDiff d path (bytesOf a) (bytesOf b)).splitOnP isNewline =
        unifiedLines d path (bytesOf a) (bytesOf b) ++ [[]] := by
      rw [unifiedDiff_eq valid]
      exact splitOn_closeAll clean
    rw [DiffStatistics.fromUnifiedDiff, parts, List.foldl_append, List.foldl_cons, List.foldl_nil,
      read_blank, read_unifiedLines d path file]
    simp [counted, DiffStatistics.zero]

/-- Lines that look like headers, an empty side and a missing newline. -/
theorem parseFileDiff_unifiedDiff_headers :
    let file : ChangedFile := ⟨none, some (bytesOf "f"), .absent, .file, .zero, rfl⟩
    let text := "--- a/f\n@@ -1 +1 @@\n+++ b/f"
    let diff := unifiedDiff trimmedDiffer "f" (bytesOf "") (bytesOf text)
    parseFileDiff diff file = unifiedRows trimmedDiffer "f" file (bytesOf "") (bytesOf text) ∧
      DiffStatistics.fromUnifiedDiff diff = ⟨3, 0⟩ := by
  have back := @parseFileDiff_unifiedDiff trimmedDiffer trimmedDiffer_valid "f" (by decide) (by decide)
    ⟨none, some (bytesOf "f"), .absent, .file, .zero, rfl⟩ (by decide)
    "" "--- a/f\n@@ -1 +1 @@\n+++ b/f" (by decide) (by decide) (by decide) (by decide)
  exact ⟨back.1, back.2.2.2.2.trans (by decide)⟩

end ProgressiveReviewer.Hunks
