import ProgressiveReviewer.Parsers.Reread

/-! An excerpt of a parsed diff is a diff of the same lines (`review-repository/src/excerpt.rs`). -/

namespace ProgressiveReviewer.Parsers

open Library Library.Extent Hunks Marks

/-- Every hunk header counts the lines that come before the next one. -/
def Counted (rows : List DiffRow) : Prop :=
  ∀ front oldStart oldCount newStart newCount rest,
    rows = front ++ .hunk oldStart oldCount newStart newCount :: rest →
      (body rest).countP isOld = oldCount ∧ (body rest).countP isNew = newCount

theorem Follows.counted {hunk : Option ActiveHunk} {rows : List DiffRow} (follows : Follows hunk rows) :
    Counted rows := by
  intro front oldStart oldCount newStart newCount rest same
  subst same
  induction front generalizing hunk with
  | nil =>
    obtain ⟨-, old, new⟩ := follows.2.inside
    exact ⟨(Nat.zero_add _).symm.trans old, (Nat.zero_add _).symm.trans new⟩
  | cons row front ih =>
    cases row <;> cases hunk <;> first | exact ih follows.2 | exact follows.elim

section Hunks

variable {selection : Selection} {index : Nat} {rows : List DiffRow}

theorem body_append_drop (rows : List DiffRow) : body rows ++ rows.drop (body rows).length = rows := by
  obtain ⟨rest, split⟩ : body rows <+: rows := List.takeWhile_prefix _
  have tail : (body rows ++ rest).drop (body rows).length = rest := List.drop_left
  rw [split] at tail
  rw [tail, split]

/-- The hunks of an excerpt read the selected lines after the rows before the first hunk. -/
theorem reads_hunks {hunk : Option ActiveHunk} (follows : Follows hunk rows)
    (fits : ∀ row ∈ rows, Fits row) : ∃ parts,
      List.Forall₂ ExcerptHunk.Reads (DiffExcerpt.hunks selection index rows) parts ∧
      parts.flatten = (picked selection (index + (body rows).length)
        (rows.drop (body rows).length)).filter DiffRow.isContent := by
  induction rows generalizing index hunk with
  | nil => exact ⟨[], .nil, rfl⟩
  | cons row rows ih =>
    obtain ⟨own, fitting⟩ := List.forall_mem_cons.mp fits
    by_cases header : isHunk row = true
    · cases row <;> first | exact Bool.noConfusion header | skip
      next oldStart oldCount newStart newCount =>
      obtain ⟨-, follows⟩ := follows
      obtain ⟨numbered, old, new⟩ := follows.inside
      obtain ⟨parts, reads, flat⟩ := @ih (index + 1) _ follows fitting
      have inside : ∀ row ∈ body rows, Fits row := fun row mem =>
        fitting row ((List.takeWhile_sublist _).subset mem)
      have read := @ExcerptHunk.read_spec selection (index + 1) (body rows) oldStart oldCount newStart
        newCount own inside numbered ((Nat.zero_add _).symm.trans old) ((Nat.zero_add _).symm.trans new)
      have whole : (picked selection (index + 1) rows).filter DiffRow.isContent =
          (picked selection (index + 1) (body rows)).filter DiffRow.isContent ++ parts.flatten := by
        conv_lhs => rw [← body_append_drop rows, picked_append, List.filter_append]
        rw [flat]
      have first : (picked selection (index + (body (.hunk oldStart oldCount newStart newCount ::
          rows)).length) ((DiffRow.hunk oldStart oldCount newStart newCount :: rows).drop
            (body (.hunk oldStart oldCount newStart newCount :: rows)).length)).filter
              DiffRow.isContent = (picked selection (index + 1) rows).filter DiffRow.isContent := by
        rw [body_hunk, List.length_nil, List.drop_zero, Nat.add_zero, picked]
        split_ifs <;> rfl
      rw [first, whole, DiffExcerpt.hunks]
      change ∃ parts', List.Forall₂ ExcerptHunk.Reads ((ExcerptHunk.read (body rows) (index + 1) selection
        (oldStart, oldCount) (newStart, newCount)).toList ++ _) parts' ∧ _
      cases found : ExcerptHunk.read (body rows) (index + 1) selection (oldStart, oldCount)
          (newStart, newCount) with
      | none =>
        rw [found] at read
        exact ⟨parts, reads, by rw [read]; rfl⟩
      | some hunk =>
        rw [found] at read
        exact ⟨_ :: parts, .cons read reads, rfl⟩
    · have plain : isHunk row = false := Bool.eq_false_iff.mpr header
      have rest : ∃ hunk', Follows hunk' rows := by
        cases row <;> cases hunk <;>
          first | exact ⟨_, follows.2⟩ | exact follows.elim
      obtain ⟨hunk', follows⟩ := rest
      obtain ⟨parts, reads, flat⟩ := @ih (index + 1) _ follows fitting
      refine ⟨parts, ?_, ?_⟩
      · cases row with
        | hunk => cases plain
        | _ => exact reads
      · rw [flat, body_cons plain, List.length_cons, List.drop_succ_cons, Nat.add_assoc,
          Nat.add_comm 1]

/-- The hunks of an excerpt read the selected lines. -/
theorem reads_selected (follows : Follows none rows) (fits : ∀ row ∈ rows, Fits row)
    (selection : Selection) : ∃ parts,
      List.Forall₂ ExcerptHunk.Reads (DiffExcerpt.hunks selection 0 rows) parts ∧
      parts.flatten = (cut rows ⟨selection.first, selection.last + 1⟩).filter DiffRow.isContent := by
  obtain ⟨parts, reads, flat⟩ := @reads_hunks selection 0 rows none follows fits
  refine ⟨parts, reads, ?_⟩
  have outside : (picked selection 0 (body rows)).filter DiffRow.isContent = [] :=
    List.filter_eq_nil_iff.mpr fun row mem =>
      Bool.eq_false_iff.mp (follows.outside row ((picked_sublist selection 0 _).subset mem))
  have all := picked_eq_cut selection 0 rows
  rw [Nat.sub_zero, Nat.sub_zero] at all
  conv_rhs => rw [← all, ← body_append_drop rows, picked_append, List.filter_append, outside]
  exact flat

end Hunks

/-- The header lines that an excerpt needs. -/
def HasHeaders (rows : List DiffRow) : Prop := FileHeaders.complete (FileHeaders.lines rows) = true

instance (rows : List DiffRow) : Decidable (HasHeaders rows) := inferInstanceAs (Decidable (_ = _))

theorem HasHeaders.ne_nil {rows : List DiffRow} (headers : HasHeaders rows) :
    FileHeaders.lines rows ≠ [] := by
  intro empty
  rw [HasHeaders, empty] at headers
  exact absurd headers (by decide)

theorem forall₂_flatten_nil {hunks : List ExcerptHunk} {parts : List (List DiffRow)}
    (reads : List.Forall₂ ExcerptHunk.Reads hunks parts) : hunks = [] ↔ parts.flatten = [] := by
  cases reads with
  | nil => exact ⟨fun _ => rfl, fun _ => rfl⟩
  | cons own reads =>
    refine ⟨fun nothing => (List.cons_ne_nil _ _ nothing).elim, fun nothing => ?_⟩
    rw [List.flatten_cons, List.append_eq_nil_iff] at nothing
    exact absurd nothing.1 own.1

/-- The lines of an excerpt's hunks, without a carriage return at the end of any. -/
theorem Reads.lines {hunks : List ExcerptHunk} {parts : List (List DiffRow)}
    (reads : List.Forall₂ ExcerptHunk.Reads hunks parts)
    (isContent : ∀ row ∈ parts.flatten, row.isContent = true)
    (noReturn : ∀ row ∈ parts.flatten, NoReturn row) : ∀ hunk ∈ hunks, hunk.lines ≠ [] ∧
      IsTextLine hunk.header.toList ∧ ∀ line ∈ hunk.lines, IsTextLine line.toList ∧
        line.toList ≠ [] ∧ dropReturn line.toList = line.toList := by
  induction reads with
  | nil => exact fun _ mem => (List.not_mem_nil mem).elim
  | @cons hunk rows hunks parts own reads ih =>
    rw [List.flatten_cons, List.forall_mem_append] at isContent noReturn
    refine List.forall_mem_cons.mpr ⟨⟨own.lines_ne_nil,
      ExcerptHunk.isTextLine_header own.2.2.2.2.1, ?_⟩, ih isContent.2 noReturn.2⟩
    have texts := own.2.2.2.1.texts isContent.1
    exact @ExcerptHunk.Written.forall _ _ own.2.2.2.2.2
      (fun line => IsTextLine line ∧ line ≠ [] ∧ dropReturn line = line)
      (fun row mem => ⟨(texts row mem).1, (texts row mem).2, (noReturn.1 row mem).dropReturn⟩)
      ⟨⟨by decide, by decide⟩, by decide, by decide⟩

/-- The last line of an excerpt is a row's or the marker. -/
theorem excerptLines_last (rows : List DiffRow) {hunks : List ExcerptHunk} (some_ : hunks ≠ [])
    (lines : ∀ hunk ∈ hunks, hunk.lines ≠ []) : ∃ front last hunk, hunk ∈ hunks ∧ last ∈ hunk.lines ∧
      excerptLines rows hunks = front ++ [last] := by
  rcases List.eq_nil_or_concat hunks with rfl | ⟨hunks', hunk, rfl⟩
  · exact absurd rfl some_
  · have own : hunk ∈ hunks'.concat hunk := by simp
    rcases List.eq_nil_or_concat hunk.lines with none_ | ⟨lines', last, split⟩
    · exact absurd none_ (lines hunk own)
    · refine ⟨FileHeaders.lines rows ++ ((hunks'.flatMap fun hunk => hunk.header :: hunk.lines) ++
        hunk.header :: lines'), last, hunk, own, by simp [split], ?_⟩
      rw [excerptLines, List.concat_eq_append, List.flatMap_append, List.flatMap_singleton, split]
      simp

/-- The text of an excerpt is read back: its rows are the selected lines. -/
theorem parse_excerpt {rows : List DiffRow} (follows : Follows none rows) (headers : HasHeaders rows)
    {hunks : List ExcerptHunk} {parts : List (List DiffRow)} (some_ : hunks ≠ [])
    (reads : List.Forall₂ ExcerptHunk.Reads hunks parts)
    (isContent : ∀ row ∈ parts.flatten, row.isContent = true)
    (noReturn : ∀ row ∈ parts.flatten, NoReturn row) :
    let text := "\n".intercalate (FileHeaders.lines rows) ++ String.join (hunks.map (·.text))
    let again := DiffParser.parseWithConflictMarkers (bytesOf text) .historicalDiffRows
    Quiet again ∧ again.filter DiffRow.isContent = parts.flatten := by
  intro text again
  have lines := Reads.lines reads isContent noReturn
  have joined : text.toList ++ ['\n'] = closeAll '\n' ((excerptLines rows hunks).map String.toList) :=
    joined_excerpt (fun hunk mem => (lines hunk mem).1) (intercalate_newline headers.ne_nil)
  have own : ∀ line ∈ (excerptLines rows hunks).map String.toList, IsTextLine line := by
    rw [List.forall_mem_map, excerptLines, List.forall_mem_append, List.forall_mem_flatMap]
    refine ⟨isTextLine_headers follows, fun hunk mem => ?_⟩
    obtain ⟨-, header, inside⟩ := lines hunk mem
    exact List.forall_mem_cons.mpr ⟨header, fun line held => (inside line held).1⟩
  have short := short_joined joined own
  rw [← bytesOf_eq] at short
  obtain ⟨front, last, hunk, mem, held, split⟩ :=
    excerptLines_last rows some_ fun hunk mem => (lines hunk mem).1
  obtain ⟨-, notEmpty, plain⟩ := (lines hunk mem).2.2 last held
  have read : textLines text.toList = (excerptLines rows hunks).map fun line => dropReturn line.toList := by
    rw [split, List.map_append, List.map_singleton] at joined own
    rw [List.forall_mem_append] at own
    rw [textLines_joined joined (fun line mem => (own.1 line mem).1)
      (own.2 _ (List.mem_singleton_self _)).1 notEmpty, split, List.map_append, List.map_map,
      List.map_singleton, plain]
    rfl
  obtain ⟨out, readHeaders, noContent, quiet⟩ := readLines_headers follows []
  obtain ⟨out', hunk', readHunks, ended, filtered, quiet'⟩ :=
    @readLines_hunks hunks parts reads isContent noReturn ⟨[] ++ out, none⟩ fun _ mem => by cases mem
  have whole : again = out ++ out' := by
    rw [show again = _ from parse_bytesOf .historicalDiffRows short, read]
    change (readLines ⟨[], none⟩ _).finishHunk.rows = _
    rw [excerptLines, List.map_append, readLines_append, readHeaders, readHunks,
      finishHunk_ended ended, List.nil_append]
  rw [whole]
  refine ⟨List.forall_mem_append.mpr ⟨quiet, quiet'⟩, ?_⟩
  rw [List.filter_append, noContent, filtered]
  rfl

/-- An excerpt of a diff parsed without notices: with its header lines and a selected line there is
a text, and it is read back without notices into the selected lines, numbered as they were, under
headers that count them. -/
theorem build_parsed {output : Bytes} {file : Marks.ChangedFile}
    (quiet : Quiet (parseFileDiff output file)) (fits : ∀ row ∈ parseFileDiff output file, Fits row)
    (selection : Selection) :
    let rows := parseFileDiff output file
    let selected := (cut rows ⟨selection.first, selection.last + 1⟩).filter DiffRow.isContent
    (¬ HasHeaders rows → DiffExcerpt.build rows selection = .error .missingHeaders) ∧
      (HasHeaders rows → selected = [] → DiffExcerpt.build rows selection = .error .noContent) ∧
      (HasHeaders rows → selected ≠ [] → ∃ text, DiffExcerpt.build rows selection = .ok text ∧
        ((∀ row ∈ selected, NoReturn row) → Quiet (parseFileDiff (bytesOf text) file) ∧
          (parseFileDiff (bytesOf text) file).filter DiffRow.isContent = selected ∧
          Counted (parseFileDiff (bytesOf text) file))) := by
  intro rows selected
  have follows : Follows none rows := follows_parseFileDiff quiet
  have noNotice : rows.any DiffRow.isNotice = false :=
    List.any_eq_false.mpr fun row mem => Bool.eq_false_iff.mp (quiet row mem)
  obtain ⟨parts, reads, flat⟩ := reads_selected follows fits selection
  have start : DiffExcerpt.build rows selection = (FileHeaders.read rows >>= fun headers =>
      if DiffExcerpt.hunks selection 0 rows = [] then .error .noContent
      else .ok (headers ++ String.join ((DiffExcerpt.hunks selection 0 rows).map (·.text)))) := by
    rw [DiffExcerpt.build, noNotice, if_neg Bool.false_ne_true]
  have read : HasHeaders rows →
      FileHeaders.read rows = .ok ("\n".intercalate (FileHeaders.lines rows)) := fun headers => if_pos headers
  refine ⟨fun missing => ?_, fun headers nothing => ?_, fun headers some_ => ?_⟩
  · rw [start, show FileHeaders.read rows = .error .missingHeaders from if_neg missing]
    rfl
  · rw [start, read headers]
    exact if_pos ((forall₂_flatten_nil reads).mpr (flat.trans nothing))
  · have more : DiffExcerpt.hunks selection 0 rows ≠ [] := fun none_ =>
      some_ (flat.symm.trans ((forall₂_flatten_nil reads).mp none_))
    refine ⟨"\n".intercalate (FileHeaders.lines rows) ++
      String.join ((DiffExcerpt.hunks selection 0 rows).map (·.text)), ?_, fun noReturn => ?_⟩
    · rw [start, read headers]
      exact if_neg more
    · have isContent : ∀ row ∈ parts.flatten, row.isContent = true := by
        rw [flat]
        exact fun row mem => (List.mem_filter.mp mem).2
      obtain ⟨quiet', same⟩ := parse_excerpt follows headers more reads isContent (flat ▸ noReturn)
      rw [parseFileDiff_of_quiet quiet]
      exact ⟨(paths_content file _).1.mpr quiet', (paths_content file _).2.trans (same.trans flat),
        (follows_withPaths (follows_parse quiet')).counted⟩

/-- A diff of a file whose line has two carriage returns, and one of its last line alone. -/
def twoReturns : Bytes := bytesOf
  "diff --git a/f b/f\nindex 1..2 100644\n--- a/f\n+++ b/f\n@@ -3,2 +3,1 @@\n a\r\r\n-b\n\\ No newline at end of file\n"

def twoReturnsFile : Marks.ChangedFile := .text (some (bytesOf "f")) (bytesOf "f")

theorem twoReturns_quiet : Quiet (parseFileDiff twoReturns twoReturnsFile) := by
  unfold Quiet
  decide

theorem twoReturns_fits : ∀ row ∈ parseFileDiff twoReturns twoReturnsFile, Fits row := by
  decide

/-- The last line with its marker is a diff of one line. -/
theorem build_parsed_last : ∃ text,
    DiffExcerpt.build (parseFileDiff twoReturns twoReturnsFile) ⟨6, 7⟩ = .ok text ∧
      (parseFileDiff (bytesOf text) twoReturnsFile).filter DiffRow.isContent = [.delete 4 "-b"] := by
  have parsed := build_parsed twoReturns_quiet twoReturns_fits ⟨6, 7⟩
  obtain ⟨text, built, read⟩ := parsed.2.2 (by decide) (by decide)
  exact ⟨text, built, (read (by decide)).2.1.trans (by decide)⟩

/-- A range without lines has no excerpt. A carriage return before another is not read back. -/
theorem build_fails : Quiet (parseFileDiff twoReturns twoReturnsFile) ∧
    DiffExcerpt.build (parseFileDiff twoReturns twoReturnsFile) ⟨0, 4⟩ = .error .noContent ∧
    (cut (parseFileDiff twoReturns twoReturnsFile) ⟨5, 7⟩).filter DiffRow.isContent =
      [.context 3 3 " a\r", .delete 4 "-b"] ∧
    ((DiffExcerpt.build (parseFileDiff twoReturns twoReturnsFile) ⟨5, 6⟩).toOption.map fun text =>
      (parseFileDiff (bytesOf text) twoReturnsFile).filter DiffRow.isContent) =
      some [.context 3 3 " a", .delete 4 "-b"] :=
  ⟨twoReturns_quiet, by decide, by decide, by decide⟩

end ProgressiveReviewer.Parsers
