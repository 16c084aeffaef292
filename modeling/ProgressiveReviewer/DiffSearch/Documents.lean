import ProgressiveReviewer.Library.LineStarts
import ProgressiveReviewer.Library.Occurrences
import ProgressiveReviewer.Hunks.Text

/-! Literal search over the text the reviewer is shown (`text-search/src/lib.rs`, `ripgrep.rs`).
The matcher and the line searcher come from outside the repository. -/

namespace ProgressiveReviewer.DiffSearch

open Library Hunks

/-- A position in a presented document, with a byte column. -/
structure Position where
  row : Nat
  column : Nat
  deriving DecidableEq, Repr

/-- One occurrence, in input document order. -/
structure Match where
  documentIndex : Nat
  position : Position
  deriving DecidableEq, Repr

/-- Searchable row text. -/
structure Document where
  text : Bytes
  rows : List Extent
  deriving DecidableEq, Repr

namespace Document

def pushRow (document : Document) (row : Bytes) : Document :=
  ⟨document.text ++ row ++ [10],
    document.rows ++ [⟨document.text.length, document.text.length + row.length⟩]⟩

def fromRows (rows : List Bytes) : Document := rows.foldl pushRow ⟨[], []⟩

/-- Where an offset of the text lies, if a row holds it. -/
def position (document : Document) (offset : Nat) : Option Position := do
  let before := (document.rows.takeWhile fun range => range.start ≤ offset).length
  if before = 0 then none
  else
    let row := before - 1
    let range ← document.rows[row]?
    if offset < range.stop then some ⟨row, offset - range.start⟩ else none

end Document

/-- The outside parts: the matcher of a literal query, and the searcher of lines. -/
structure Engine where
  /-- The matcher of a query, unless it cannot be built. -/
  build : List Char → Option (Literal UInt8)
  /-- A query in one line matches within lines. -/
  within_line : ∀ {query literal}, '\n' ∉ query → build query = some literal → literal.Avoids 10
  /-- The lines of a text with a match, each with its offset. -/
  matchedLines : Literal UInt8 → Bytes → List (Nat × Bytes)
  lines_law : ∀ literal text, matchedLines literal text =
    ((offsets 0 (Lines.new text)).zip (Lines.new text)).filter
      fun line => literal.findAt line.2 0 ≠ none

variable (engine : Engine)

/-- The matcher of a query; none for the empty one. -/
def pattern (query : List Char) : Option (Literal UInt8) :=
  if query = [] then none else engine.build query

/-- Where a query matches a text. -/
def byteRanges (query : List Char) (text : Bytes) : List Extent :=
  match pattern engine query with
  | some literal => literal.ranges text 0
  | none => []

/-- A search inline, row by row. -/
def searchUnless (query : List Char) (documents : List Document) : List Match :=
  documents.zipIdx.flatMap fun (document, documentIndex) =>
    document.rows.zipIdx.flatMap fun (range, row) =>
      (byteRanges engine query (range.cut document.text)).map fun found =>
        ⟨documentIndex, row, found.start⟩

/-- A search on the worker, line by line. -/
def engineSearch (query : List Char) (documents : List Document) : List Match :=
  if '\n' ∈ query then searchUnless engine query documents
  else match pattern engine query with
    | some literal => documents.zipIdx.flatMap fun (document, documentIndex) =>
        (engine.matchedLines literal document.text).flatMap fun (offset, line) =>
          (byteRanges engine query line).filterMap fun found =>
            (document.position (offset + found.start)).map fun position => ⟨documentIndex, position⟩
    | none => []

/-! The two searches find the same matches. -/

/-- Where the rows of a document lie in its text. -/
def rowRanges : Nat → List Bytes → List Extent
  | _, [] => []
  | start, row :: rows => ⟨start, start + row.length⟩ :: rowRanges (start + row.length + 1) rows

theorem foldl_pushRow (document : Document) (rows : List Bytes) :
    rows.foldl Document.pushRow document =
      ⟨document.text ++ closeAll 10 rows, document.rows ++ rowRanges document.text.length rows⟩ := by
  induction rows generalizing document with
  | nil => simp [closeAll, rowRanges]
  | cons row rows ih =>
    rw [List.foldl_cons, ih, rowRanges]
    simp [Document.pushRow, closeAll, Nat.add_assoc]

theorem fromRows_eq (rows : List Bytes) :
    Document.fromRows rows = ⟨closeAll 10 rows, rowRanges 0 rows⟩ := by
  rw [Document.fromRows, foldl_pushRow]
  rfl

theorem rowRanges_append (start : Nat) (front back : List Bytes) :
    rowRanges start (front ++ back) =
      rowRanges start front ++ rowRanges (start + (closeAll 10 front).length) back := by
  induction front generalizing start with
  | nil => rfl
  | cons row front ih =>
    have length : start + row.length + 1 + (closeAll 10 front).length =
        start + (closeAll 10 (row :: front)).length := by
      simp only [closeAll, List.flatMap_cons, List.length_append, List.length_singleton]
      omega
    rw [List.cons_append, rowRanges, ih, length]
    rfl

theorem length_rowRanges (start : Nat) (rows : List Bytes) :
    (rowRanges start rows).length = rows.length := by
  induction rows generalizing start with
  | nil => rfl
  | cons row rows ih => rw [rowRanges, List.length_cons, ih, List.length_cons]

theorem start_le_of_mem_rowRanges {start : Nat} {rows : List Bytes} {range : Extent}
    (mem : range ∈ rowRanges start rows) : range.start ≤ start + (closeAll 10 rows).length := by
  induction rows generalizing start with
  | nil => cases mem
  | cons row rows ih =>
    simp only [closeAll, List.flatMap_cons, List.length_append, List.length_singleton] at ih ⊢
    rcases List.mem_cons.mp mem with rfl | later
    · exact Nat.le_add_right _ _
    · have bound := ih later
      omega

section Rows

variable (front : List Bytes) (row : Bytes) (back : List Bytes)

theorem rows_split : rowRanges 0 (front ++ row :: back) =
    rowRanges 0 front ++ ⟨(closeAll 10 front).length, (closeAll 10 front).length + row.length⟩ ::
      rowRanges ((closeAll 10 front).length + row.length + 1) back := by
  rw [rowRanges_append, Nat.zero_add, rowRanges]

/-- A place in a row is found there. -/
theorem position_row (column : Nat) (inside : column < row.length) :
    (Document.fromRows (front ++ row :: back)).position ((closeAll 10 front).length + column) =
      some ⟨front.length, column⟩ := by
  have passed : ∀ range ∈ rowRanges 0 front,
      decide (range.start ≤ (closeAll 10 front).length + column) = true := by
    intro range mem
    have bound := start_le_of_mem_rowRanges mem
    exact decide_eq_true (by omega)
  have stops : (rowRanges ((closeAll 10 front).length + row.length + 1) back).takeWhile
      (fun range => range.start ≤ (closeAll 10 front).length + column) = [] := by
    cases back with
    | nil => rfl
    | cons next back =>
      rw [rowRanges, List.takeWhile_cons_of_neg]
      rw [decide_eq_true_eq, Nat.not_le]
      exact Nat.lt_succ_of_lt (Nat.add_lt_add_left inside _)
  have held : (rowRanges 0 (front ++ row :: back)).takeWhile
      (fun range => range.start ≤ (closeAll 10 front).length + column) =
        rowRanges 0 front ++
          [⟨(closeAll 10 front).length, (closeAll 10 front).length + row.length⟩] := by
    rw [rows_split, List.takeWhile_append_of_pos passed, List.takeWhile_cons_of_pos (by simp), stops]
  have own : (rowRanges 0 (front ++ row :: back))[front.length]? =
      some ⟨(closeAll 10 front).length, (closeAll 10 front).length + row.length⟩ := by
    rw [rows_split, List.getElem?_append_right (length_rowRanges 0 front).le, length_rowRanges,
      Nat.sub_self]
    rfl
  have count : (rowRanges 0 front ++ [(⟨(closeAll 10 front).length,
      (closeAll 10 front).length + row.length⟩ : Extent)]).length = front.length + 1 := by
    rw [List.length_append, length_rowRanges, List.length_singleton]
  rw [fromRows_eq, Document.position]
  simp only [held, count, Nat.succ_ne_zero, if_false, Nat.add_sub_cancel, own, Option.bind_eq_bind,
    Option.bind_some, Nat.add_sub_cancel_left]
  exact if_pos (Nat.add_lt_add_left inside _)

theorem cut_row : (⟨(closeAll 10 front).length, (closeAll 10 front).length + row.length⟩ : Extent).cut
    (closeAll 10 (front ++ row :: back)) = row := by
  have text : closeAll 10 (front ++ row :: back) =
      closeAll 10 front ++ (row ++ 10 :: closeAll 10 back) := by
    simp [closeAll]
  rw [text, Extent.cut, List.drop_left, Nat.add_sub_cancel_left, List.take_left]

end Rows

section Searches

variable {engine : Engine} {query : List Char} {literal : Literal UInt8}

theorem byteRanges_eq (built : pattern engine query = some literal) (text : Bytes) :
    byteRanges engine query text = literal.occurrences 0 text := by
  rw [byteRanges, built]
  exact literal.ranges_eq text 0

theorem avoids_newline (one_line : '\n' ∉ query) (built : pattern engine query = some literal) :
    literal.Avoids 10 := by
  unfold pattern at built
  split_ifs at built
  exact engine.within_line one_line built

/-- The matches of a text, line by line. -/
theorem occurrences_lines (avoids : literal.Avoids 10) (start : Nat) {lines : List Bytes}
    (listed : LineList isNewline lines) :
    literal.occurrences start lines.flatten =
      ((offsets start lines).zip lines).flatMap fun line => literal.occurrences line.1 line.2 := by
  induction lines generalizing start with
  | nil => exact literal.occurrences_nil start
  | cons line lines ih =>
    have ih := ih (start + line.length) listed.tail
    rw [offsets, List.zip_cons_cons, List.flatMap_cons, ← ih, List.flatten_cons]
    cases lines with
    | nil => rw [List.flatten_nil, List.append_nil, literal.occurrences_nil, List.append_nil]
    | cons next lines =>
      obtain ⟨body, last, rfl, ends, -⟩ := listed.1
      obtain rfl := of_decide_eq_true ends
      rw [List.append_assoc, List.singleton_append, Literal.occurrences_append_mark avoids,
        Literal.occurrences_mark avoids, List.length_append, List.length_singleton]
      rfl

/-- The matches of a document's text, row by row. -/
theorem occurrences_rows (avoids : literal.Avoids 10) (documentIndex : Nat)
    (front back : List Bytes) :
    (literal.occurrences (closeAll 10 front).length (closeAll 10 back)).filterMap (fun found =>
        ((Document.fromRows (front ++ back)).position found.start).map (Match.mk documentIndex)) =
      (back.zipIdx front.length).flatMap fun row =>
        (literal.occurrences 0 row.1).map fun found => ⟨documentIndex, row.2, found.start⟩ := by
  induction back generalizing front with
  | nil => simp [closeAll, literal.occurrences_nil]
  | cons row back ih =>
    have text : closeAll 10 (row :: back) = row ++ 10 :: closeAll 10 back := by
      simp [closeAll]
    have length : (closeAll 10 (front ++ [row])).length =
        (closeAll 10 front).length + row.length + 1 := by
      simp [closeAll, Nat.add_assoc]
    have ih := ih (front ++ [row])
    rw [List.append_assoc, List.singleton_append, length, List.length_append,
      List.length_singleton] at ih
    rw [text, Literal.occurrences_append_mark avoids, List.filterMap_append, ih, List.zipIdx_cons,
      List.flatMap_cons]
    refine congrArg (· ++ _) ?_
    have shifted := literal.occurrences_shift (closeAll 10 front).length 0 row
    rw [Nat.add_zero] at shifted
    rw [shifted, List.filterMap_map, ← List.filterMap_eq_map]
    refine List.filterMap_congr fun found mem => ?_
    have bounds := literal.occurrences_bounds mem
    have inside := position_row front row back found.start (by omega)
    simp only [Function.comp_apply, inside, Option.map_some]

/-- Lines without a match have nothing to add. -/
theorem flatMap_matchedLines {β : Type*} (engine : Engine) (literal : Literal UInt8) (text : Bytes)
    (found : Nat → Extent → Option β) :
    (engine.matchedLines literal text).flatMap (fun line =>
        (literal.occurrences 0 line.2).filterMap (found line.1)) =
      ((offsets 0 (Lines.new text)).zip (Lines.new text)).flatMap fun line =>
        (literal.occurrences 0 line.2).filterMap (found line.1) := by
  rw [engine.lines_law]
  induction (offsets 0 (Lines.new text)).zip (Lines.new text) with
  | nil => rfl
  | cons line lines ih =>
    rw [List.filter_cons, List.flatMap_cons]
    split_ifs with matched
    · rw [List.flatMap_cons, ih]
    · have none : literal.findAt line.2 0 = none := by simpa using matched
      rw [Literal.findAt, List.drop_zero] at none
      rw [literal.occurrences_findFrom, none, ih]
      rfl

/-- The rows of a document, cut from its text. -/
theorem flatMap_rowRanges {β : Type*} (results : Bytes → Nat → List β) (front back : List Bytes) :
    ((rowRanges (closeAll 10 front).length back).zipIdx front.length).flatMap (fun row =>
        results (row.1.cut (closeAll 10 (front ++ back))) row.2) =
      (back.zipIdx front.length).flatMap fun row => results row.1 row.2 := by
  induction back generalizing front with
  | nil => rfl
  | cons row back ih =>
    have length : (closeAll 10 (front ++ [row])).length =
        (closeAll 10 front).length + row.length + 1 := by
      simp [closeAll, Nat.add_assoc]
    have ih := ih (front ++ [row])
    rw [List.append_assoc, List.singleton_append, length, List.length_append,
      List.length_singleton] at ih
    rw [rowRanges, List.zipIdx_cons, List.flatMap_cons, ih, List.zipIdx_cons, List.flatMap_cons,
      cut_row]

/-- The worker's search of a document finds what the inline one does. -/
theorem document_matches (one_line : '\n' ∉ query) (built : pattern engine query = some literal)
    (documentIndex : Nat) (rows : List Bytes) :
    ((engine.matchedLines literal (Document.fromRows rows).text).flatMap fun line =>
        (byteRanges engine query line.2).filterMap fun found =>
          ((Document.fromRows rows).position (line.1 + found.start)).map (Match.mk documentIndex)) =
      (Document.fromRows rows).rows.zipIdx.flatMap fun row =>
        (byteRanges engine query (row.1.cut (Document.fromRows rows).text)).map fun found =>
          ⟨documentIndex, row.2, found.start⟩ := by
  have avoids := avoids_newline one_line built
  have by_rows := occurrences_rows avoids documentIndex [] rows
  have by_cuts := flatMap_rowRanges (fun text row => (literal.occurrences 0 text).map fun found =>
    (⟨documentIndex, row, found.start⟩ : Match)) [] rows
  have by_lines := occurrences_lines avoids 0 (Lines.lineList_new (closeAll 10 rows))
  rw [Lines.flatten_new] at by_lines
  have text : (Document.fromRows rows).text = closeAll 10 rows := by rw [fromRows_eq]
  have ranges : (Document.fromRows rows).rows = rowRanges 0 rows := by rw [fromRows_eq]
  have moved : (literal.occurrences 0 (closeAll 10 rows)).filterMap (fun found =>
        ((Document.fromRows rows).position found.start).map (Match.mk documentIndex)) =
      ((offsets 0 (Lines.new (closeAll 10 rows))).zip (Lines.new (closeAll 10 rows))).flatMap
        fun line => (literal.occurrences 0 line.2).filterMap fun found =>
          ((Document.fromRows rows).position (line.1 + found.start)).map (Match.mk documentIndex) := by
    rw [by_lines, List.filterMap_flatMap]
    refine List.flatMap_congr fun line _ => ?_
    have shifted := literal.occurrences_shift line.1 0 line.2
    rw [Nat.add_zero] at shifted
    rw [shifted, List.filterMap_map]
    rfl
  simp only [byteRanges_eq built]
  refine (flatMap_matchedLines engine literal _ fun offset found =>
    ((Document.fromRows rows).position (offset + found.start)).map (Match.mk documentIndex)).trans ?_
  rw [text, ranges, ← moved]
  exact by_rows.trans by_cuts.symm

/-- The worker's search finds the matches that the inline one does. -/
theorem engineSearch_eq (engine : Engine) (query : List Char) (texts : List (List Bytes)) :
    engineSearch engine query (texts.map Document.fromRows) =
      searchUnless engine query (texts.map Document.fromRows) := by
  unfold engineSearch
  split_ifs with lines
  · rfl
  · cases built : pattern engine query with
    | none =>
      have silent (text : Bytes) : byteRanges engine query text = [] := by rw [byteRanges, built]
      simp [searchUnless, silent]
    | some literal =>
      refine List.flatMap_congr fun entry mem => ?_
      obtain ⟨document, documentIndex⟩ := entry
      obtain ⟨rows, -, rfl⟩ := List.mem_map.mp (List.fst_mem_of_mem_zipIdx mem)
      exact document_matches lines built documentIndex rows

end Searches

/-! The order of the matches. -/

/-- Where a match stands among all matches. -/
def Match.Before (first second : Match) : Prop :=
  first.documentIndex < second.documentIndex ∨ first.documentIndex = second.documentIndex ∧
    (first.position.row < second.position.row ∨ first.position.row = second.position.row ∧
      first.position.column < second.position.column)

theorem pairwise_zipIdx {α : Type*} (items : List α) :
    items.zipIdx.Pairwise fun first second => first.2 < second.2 := by
  have indices : (items.zipIdx.map Prod.snd).Pairwise (· < ·) := by
    rw [List.zipIdx_map_snd]
    exact List.pairwise_lt_range'
  exact List.pairwise_map.mp indices

theorem byteRanges_ascending (query : List Char) (text : Bytes) :
    (byteRanges engine query text).Pairwise fun first second => first.start < second.start := by
  cases built : pattern engine query with
  | none =>
    rw [byteRanges, built]
    exact List.Pairwise.nil
  | some literal =>
    rw [byteRanges_eq built]
    refine (literal.occurrences_ascending 0 text).imp_of_mem fun mem _ apart => ?_
    exact (literal.occurrences_bounds mem).2.1.trans_le apart

theorem searchUnless_ascending (query : List Char) (documents : List Document) :
    (searchUnless engine query documents).Pairwise Match.Before := by
  refine List.pairwise_flatMap.mpr ⟨fun document _ => List.pairwise_flatMap.mpr
    ⟨fun row _ => List.pairwise_map.mpr ?_, ?_⟩, ?_⟩
  · exact (byteRanges_ascending engine query _).imp fun before =>
      Or.inr ⟨rfl, Or.inr ⟨rfl, before⟩⟩
  · refine (pairwise_zipIdx _).imp fun {first second} before => ?_
    intro found mem other later
    obtain ⟨_, _, rfl⟩ := List.mem_map.mp mem
    obtain ⟨_, _, rfl⟩ := List.mem_map.mp later
    exact Or.inr ⟨rfl, Or.inl before⟩
  · refine (pairwise_zipIdx _).imp fun {first second} before => ?_
    intro found mem other later
    obtain ⟨_, _, held⟩ := List.mem_flatMap.mp mem
    obtain ⟨_, _, rfl⟩ := List.mem_map.mp held
    obtain ⟨_, _, held⟩ := List.mem_flatMap.mp later
    obtain ⟨_, _, rfl⟩ := List.mem_map.mp held
    exact Or.inl before

end ProgressiveReviewer.DiffSearch
