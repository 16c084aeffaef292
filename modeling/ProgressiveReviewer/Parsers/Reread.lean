import ProgressiveReviewer.Parsers.Selected

/-! An excerpt is read back into the selected rows (`review-repository/src/excerpt.rs`). -/

namespace ProgressiveReviewer.Parsers

open Library Library.Extent Hunks Marks

/-! ## Hunk headers -/

/-- A start and a count, as an excerpt writes them. -/
def digitRange (start count : Nat) : List Char :=
  Nat.toDigits 10 start ++ ',' :: (([] : List Char) ++ Nat.toDigits 10 count)

theorem parseRange_digitRange {start count : Nat} (small : start < 2 ^ 32) (few : count < 2 ^ 32) :
    ActiveHunk.parseRange (digitRange start count) = some (start, count) := by
  have clean : ',' ∉ Nat.toDigits 10 start := not_mem_digits (by decide)
  rw [ActiveHunk.parseRange, digitRange, splitOnce_append clean []]
  dsimp only
  rw [parseU32_digits small, parseU32_digits few]
  rfl

theorem not_mem_digitRange {start count : Nat} {mark : Char} (other : mark.isDigit = false)
    (noComma : mark ≠ ',') : mark ∉ digitRange start count := by
  simp [digitRange, not_mem_digits other, noComma]

theorem length_digitRange {start count : Nat} (small : start < 2 ^ 32) (few : count < 2 ^ 32) :
    (digitRange start count).length ≤ 21 := by
  have digits : ∀ number, number < 10 ^ 10 → (Nat.toDigits 10 number).length ≤ 10 := fun _ small =>
    (Nat.length_toDigits_le_iff (by decide) (by decide)).mpr small
  have first := digits start (by omega)
  have second := digits count (by omega)
  simp only [digitRange, List.nil_append, List.length_append, List.length_cons]
  omega

namespace ExcerptHunk

variable (hunk : ExcerptHunk)

/-- The hunk that a parser reads from a header. -/
def active : ActiveHunk := ⟨hunk.oldStart, hunk.oldCount, hunk.newStart, hunk.newCount, 0, 0⟩

theorem toList_header : hunk.header.toList = "@@ -".toList ++
    (digitRange hunk.oldStart hunk.oldCount ++ ' ' :: (['+'] ++
      (digitRange hunk.newStart hunk.newCount ++ ' ' :: (['@', '@'] ++ [])))) := by
  have digits : ∀ number : Nat, (toString number).toList = Nat.toDigits 10 number :=
    fun _ => Nat.toList_repr
  have comma : ",".toList = [','] := rfl
  have middle : " +".toList = [' ', '+'] := rfl
  have ends : " @@".toList = [' ', '@', '@'] := rfl
  simp only [header, String.toList_append, digits, comma, middle, ends, digitRange, List.append_assoc,
    List.cons_append, List.nil_append, List.append_nil]

variable {hunk}

theorem parse_header
    (fits : Fits (.hunk hunk.oldStart hunk.oldCount hunk.newStart hunk.newCount)) :
    ActiveHunk.parse hunk.header.toList = some hunk.active := by
  obtain ⟨start, count, start', count'⟩ := fits
  have mark : "@@ -".toList = ['@', '@', ' ', '-'] := rfl
  have leads : ∀ rest, ['@', '@', ' ', '-'].isPrefixOf (['@', '@', ' ', '-'] ++ rest) = true :=
    fun rest => List.isPrefixOf_iff_prefix.mpr ⟨rest, rfl⟩
  rw [toList_header, mark]
  simp only [ActiveHunk.parse, if_pos (leads _), List.drop_left, Option.bind_eq_bind, Option.bind_some,
    splitOnce_append (@not_mem_digitRange _ _ ' ' (by decide) (by decide)),
    parseRange_digitRange start count, parseRange_digitRange start' count']
  rfl

theorem isTextLine_header
    (fits : Fits (.hunk hunk.oldStart hunk.oldCount hunk.newStart hunk.newCount)) :
    IsTextLine hunk.header.toList := by
  obtain ⟨start, count, start', count'⟩ := fits
  have old := length_digitRange start count
  have new := length_digitRange start' count'
  have mark : "@@ -".toList = ['@', '@', ' ', '-'] := rfl
  have most : maxLineBytes = 16777216 := rfl
  constructor
  · have plain : ∀ start count, '\n' ∉ digitRange start count := fun _ _ =>
      not_mem_digitRange (by decide) (by decide)
    rw [toList_header, mark]
    simp [plain]
  · have whole := length_encode hunk.header.toList
    rw [toList_header, mark] at whole ⊢
    simp only [List.length_append, List.length_cons, List.length_nil] at whole
    omega

theorem dropReturn_header : dropReturn hunk.header.toList = hunk.header.toList := by
  have last : hunk.header.toList.getLast? = some '@' := by
    rw [toList_header]
    refine List.getLast?_eq_some_iff.mpr ⟨"@@ -".toList ++
      (digitRange hunk.oldStart hunk.oldCount ++ ' ' :: (['+'] ++
        (digitRange hunk.newStart hunk.newCount ++ [' ', '@']))), ?_⟩
    simp
  rw [dropReturn, stripLast, last, if_neg (by decide)]
  rfl

end ExcerptHunk

/-! ## Lines of hunks -/

/-- Read lines of a diff. -/
def readLines (parser : DiffParser) (lines : List (List Char)) : DiffParser :=
  lines.foldl (fun parser line => DiffParser.push parser .historicalDiffRows line) parser

theorem readLines_append (parser : DiffParser) (front rest : List (List Char)) :
    readLines parser (front ++ rest) = readLines (readLines parser front) rest := List.foldl_append

/-- A text without a carriage return at its end. -/
def NoReturn (row : DiffRow) : Prop := (contentText row).toList.getLast? ≠ some '\r'

instance : DecidablePred NoReturn := fun _ => inferInstanceAs (Decidable (_ ≠ _))

theorem NoReturn.dropReturn {row : DiffRow} (own : NoReturn row) :
    Hunks.dropReturn (contentText row).toList = (contentText row).toList := by
  rw [Hunks.dropReturn, stripLast, if_neg own]
  rfl

/-- The line of a row makes that row. -/
theorem readLines_row {row : DiffRow} {done : List DiffRow} {active : ActiveHunk}
    (isContent : row.isContent = true)
    (numbered : Numbered (active.oldStart + active.oldSeen) (active.newStart + active.newSeen) [row]) :
    readLines ⟨done, some active⟩ [(contentText row).toList] =
      ⟨done ++ [row], some { active with
        oldSeen := active.oldSeen + ExcerptHunk.step isOld row
        newSeen := active.newSeen + ExcerptHunk.step isNew row }⟩ := by
  have pushed : ∀ {marker : Char} {hunk : ActiveHunk}, (contentText row).toList.head? = some marker →
      marker ≠ 'd' → marker ≠ '@' →
      (∀ rest, (contentText row).toList = marker :: rest →
        active.push .historicalDiffRows (marker :: rest) = (hunk, row)) →
      readLines ⟨done, some active⟩ [(contentText row).toList] = ⟨done ++ [row], some hunk⟩ := by
    intro marker hunk first noHeader noHunk pushed
    obtain ⟨rest, split⟩ := List.head?_eq_some_iff.mp first
    have whole := @push_row ⟨done, some active⟩ active .historicalDiffRows rfl _ noHeader noHunk rest
    rw [pushed rest split] at whole
    rw [split]
    exact whole
  have back : ∀ {text : String} {chars : List Char}, text.toList = chars → String.ofList chars = text :=
    fun same => same ▸ String.ofList_toList
  cases row with
  | context oldLine newLine text =>
    obtain ⟨⟨rfl, rfl, first, -⟩, -⟩ := numbered
    refine pushed first (by decide) (by decide) fun rest split => ?_
    rw [push_content (by decide), back split]
    rfl
  | delete oldLine text =>
    obtain ⟨⟨rfl, first, -⟩, -⟩ := numbered
    refine pushed first (by decide) (by decide) fun rest split => ?_
    rw [push_content (by decide), back split]
    rfl
  | add newLine text =>
    obtain ⟨⟨rfl, first, -⟩, -⟩ := numbered
    refine pushed first (by decide) (by decide) fun rest split => ?_
    rw [push_content (by decide), back split]
    rfl
  | _ => exact Bool.noConfusion isContent

/-- Rows between two headers that make no notice. -/
def Inner (rows : List DiffRow) : Prop := ∀ row ∈ rows, row.isNotice = false ∧ isHunk row = false

theorem Inner.append {rows rest : List DiffRow} (own : Inner rows) (own' : Inner rest) :
    Inner (rows ++ rest) := List.forall_mem_append.mpr ⟨own, own'⟩

theorem inner_content {row : DiffRow} (isContent : row.isContent = true) : Inner [row] := by
  intro row' mem
  rw [List.mem_singleton.mp mem]
  cases row <;> first | exact ⟨rfl, rfl⟩ | exact Bool.noConfusion isContent

theorem readLines_noNewline (done : List DiffRow) (active : ActiveHunk) :
    readLines ⟨done, some active⟩ [noNewlineText.toList] =
      ⟨done ++ [.metadata noNewlineText], some active⟩ := by
  have mark : noNewlineText.toList = '\\' :: " No newline at end of file".toList := rfl
  have whole := @push_row ⟨done, some active⟩ active .historicalDiffRows rfl '\\'
    (show '\\' ≠ 'd' by decide) (by decide) " No newline at end of file".toList
  rw [← mark] at whole
  exact whole.trans rfl

/-- The lines of a hunk make its rows. -/
theorem readLines_written {rows : List DiffRow} {lines : List String} (written : ExcerptHunk.Written rows lines)
    (isContent : ∀ row ∈ rows, row.isContent = true) (noReturn : ∀ row ∈ rows, NoReturn row)
    {done : List DiffRow} {active : ActiveHunk}
    (numbered : Numbered (active.oldStart + active.oldSeen) (active.newStart + active.newSeen) rows) :
    ∃ out, readLines ⟨done, some active⟩ ((lines.map String.toList).map dropReturn) =
      ⟨done ++ out, some { active with
        oldSeen := active.oldSeen + rows.countP isOld
        newSeen := active.newSeen + rows.countP isNew }⟩ ∧
      out.filter DiffRow.isContent = rows ∧ Inner out := by
  induction rows generalizing lines done active with
  | nil =>
    obtain rfl : lines = [] := written
    exact ⟨[], by rw [List.append_nil]; rfl, rfl, fun _ mem => (List.not_mem_nil mem).elim⟩
  | cons row rows ih =>
    obtain ⟨rest, same, written⟩ := written
    obtain ⟨own, isContent⟩ := List.forall_mem_cons.mp isContent
    obtain ⟨plain, noReturn⟩ := List.forall_mem_cons.mp noReturn
    have tail := numbered.tail
    rw [Nat.add_assoc, Nat.add_assoc] at tail
    -- After the row's own line, its marker may come.
    obtain ⟨more, noContent, inner, split⟩ : ∃ more, more.filter DiffRow.isContent = [] ∧
        Inner more ∧ ∀ active : ActiveHunk, readLines ⟨done ++ [row], some active⟩
          (((lines.drop 1).map String.toList).map dropReturn) =
            readLines ⟨done ++ [row] ++ more, some active⟩
              ((rest.map String.toList).map dropReturn) := by
      rcases same with rfl | rfl
      · refine ⟨[], rfl, fun _ mem => (List.not_mem_nil mem).elim, fun active => ?_⟩
        rw [List.append_nil]
        rfl
      · refine ⟨[.metadata noNewlineText], rfl, ?_, fun active => ?_⟩
        · intro row mem
          rw [List.mem_singleton.mp mem]
          exact ⟨rfl, rfl⟩
        · have bare : dropReturn noNewlineText.toList = noNewlineText.toList := by decide
          have marker := readLines_noNewline (done ++ [row]) active
          rw [← marker, ← readLines_append, List.drop_one, List.tail_cons, List.map_cons,
            List.map_cons, bare]
          rfl
    obtain ⟨out, read, filtered, inner'⟩ := @ih rest written isContent noReturn
      (done ++ [row] ++ more) { active with
        oldSeen := active.oldSeen + ExcerptHunk.step isOld row
        newSeen := active.newSeen + ExcerptHunk.step isNew row } tail
    have first : lines = contentText row :: lines.drop 1 := by
      rcases same with rfl | rfl <;> rfl
    refine ⟨row :: (more ++ out), ?_, ?_, (inner_content own).append (inner.append inner')⟩
    · rw [first, List.map_cons, List.map_cons, plain.dropReturn, ← List.singleton_append,
        readLines_append, readLines_row own numbered.head, split, read]
      have counts : ∀ (side : DiffRow → Bool) (seen : Nat),
          seen + ExcerptHunk.step side row + rows.countP side = seen + (row :: rows).countP side := by
        intro side seen
        rw [List.countP_cons, ExcerptHunk.step]
        omega
      rw [show done ++ [row] ++ more ++ out = done ++ row :: (more ++ out) by simp]
      simp only [counts]
    · rw [List.filter_cons_of_pos own, List.filter_append, noContent, filtered]
      rfl

theorem finishHunk_ended {parser : DiffParser} (ended : Ended parser.hunk) :
    parser.finishHunk.rows = parser.rows := by
  obtain ⟨rows, _ | active⟩ := parser
  · rfl
  · exact if_pos (ended active rfl)

/-- Reading an excerpt's hunk makes its header and the rows of its lines. -/
theorem readLines_hunk {hunk : ExcerptHunk} {rows : List DiffRow} (reads : hunk.Reads rows)
    (isContent : ∀ row ∈ rows, row.isContent = true) (noReturn : ∀ row ∈ rows, NoReturn row)
    {parser : DiffParser} (ended : Ended parser.hunk) :
    ∃ out active, readLines parser ((hunk.header :: hunk.lines).map fun line => dropReturn line.toList) =
        ⟨parser.rows ++ hunk.active.header :: out, some active⟩ ∧ Ended (some active) ∧
      out.filter DiffRow.isContent = rows ∧ Inner out := by
  obtain ⟨-, old, new, numbered, fits, written⟩ := reads
  have pushed : parser.push .historicalDiffRows hunk.header.toList =
      ⟨parser.rows ++ [hunk.active.header], some hunk.active⟩ := by
    have header : "diff --git ".toList.isPrefixOf hunk.header.toList = false := by
      have mark : "diff --git ".toList = 'd' :: "iff --git ".toList := rfl
      have mark' : "@@ -".toList = '@' :: "@ -".toList := rfl
      rw [ExcerptHunk.toList_header, mark, mark']
      simp [List.isPrefixOf]
    rw [DiffParser.push, header, if_neg Bool.false_ne_true, ExcerptHunk.parse_header fits,
      finishHunk_ended ended]
  obtain ⟨out, read, filtered, inner⟩ := @readLines_written rows hunk.lines written isContent noReturn
    (parser.rows ++ [hunk.active.header]) hunk.active numbered
  refine ⟨out, { hunk.active with
    oldSeen := hunk.active.oldSeen + rows.countP isOld
    newSeen := hunk.active.newSeen + rows.countP isNew }, ?_, ?_, filtered, inner⟩
  · rw [List.map_cons, ExcerptHunk.dropReturn_header, ← List.singleton_append, readLines_append]
    have first : readLines parser [hunk.header.toList] =
        ⟨parser.rows ++ [hunk.active.header], some hunk.active⟩ := by
      rw [readLines, List.foldl_cons, List.foldl_nil, pushed]
    have lines : (hunk.lines.map fun line => dropReturn line.toList) =
        (hunk.lines.map String.toList).map dropReturn := by
      rw [List.map_map]
      rfl
    rw [first, lines, read, List.append_assoc, List.singleton_append]
  · intro active mem
    rw [← Option.mem_some.mp mem]
    simp [ActiveHunk.isComplete, ExcerptHunk.active, old, new]

/-- Reading the hunks of an excerpt makes their rows. -/
theorem readLines_hunks {hunks : List ExcerptHunk} {parts : List (List DiffRow)}
    (reads : List.Forall₂ ExcerptHunk.Reads hunks parts)
    (isContent : ∀ row ∈ parts.flatten, row.isContent = true)
    (noReturn : ∀ row ∈ parts.flatten, NoReturn row) {parser : DiffParser} (ended : Ended parser.hunk) :
    ∃ out hunk, readLines parser
        ((hunks.flatMap fun hunk => hunk.header :: hunk.lines).map fun line => dropReturn line.toList) =
        ⟨parser.rows ++ out, hunk⟩ ∧ Ended hunk ∧
      out.filter DiffRow.isContent = parts.flatten ∧ Quiet out := by
  induction reads generalizing parser with
  | nil => exact ⟨[], parser.hunk, by rw [List.append_nil]; rfl, ended, rfl, fun _ mem =>
      (List.not_mem_nil mem).elim⟩
  | @cons hunk rows hunks parts own reads ih =>
    rw [List.flatten_cons, List.forall_mem_append] at isContent noReturn
    obtain ⟨out, active, read, ended, filtered, inner⟩ :=
      readLines_hunk own isContent.1 noReturn.1 ended
    obtain ⟨out', hunk', read', ended', filtered', quiet⟩ := ih isContent.2 noReturn.2
      (show Ended (DiffParser.hunk ⟨parser.rows ++ hunk.active.header :: out, some active⟩) from ended)
    refine ⟨hunk.active.header :: out ++ out', hunk', ?_, ended', ?_, ?_⟩
    · rw [List.flatMap_cons, List.map_append, readLines_append, read, read', List.append_assoc]
    · rw [List.flatten_cons, ← filtered, ← filtered', ← List.filter_append]
      rfl
    · refine List.forall_mem_append.mpr ⟨List.forall_mem_cons.mpr ⟨rfl, fun row mem => ?_⟩, quiet⟩
      exact (inner row mem).1

/-! ## File headers -/

theorem isPrefixOf_dropReturn {mark line : List Char} (leads : mark.isPrefixOf line = true)
    (plain : mark.getLast? ≠ some '\r') : mark.isPrefixOf (dropReturn line) = true := by
  rcases dropReturn_eq line with same | same
  · rwa [← same]
  · obtain ⟨rest, split⟩ := List.isPrefixOf_iff_prefix.mp leads
    rcases List.eq_nil_or_concat rest with rfl | ⟨rest', last, rfl⟩
    · rw [List.append_nil] at split
      rw [split, same] at plain
      exact absurd List.getLast?_concat plain
    · rw [same, List.concat_eq_append, ← List.append_assoc] at split
      exact List.isPrefixOf_iff_prefix.mpr ⟨rest', (List.append_inj' split rfl).1⟩

theorem isMetadata_dropReturn {line : List Char} (known : DiffParser.isMetadata line = true) :
    DiffParser.isMetadata (dropReturn line) = true := by
  rw [DiffParser.isMetadata, Bool.or_eq_true] at known ⊢
  rcases known with empty | marked
  · rw [List.isEmpty_iff.mp empty]
    exact .inl rfl
  · obtain ⟨mark, mem, leads⟩ := List.any_eq_true.mp marked
    have plain : ∀ mark ∈ DiffParser.metadataMarks, mark.toList.getLast? ≠ some '\r' := by decide
    exact .inr (List.any_eq_true.mpr ⟨mark, mem, isPrefixOf_dropReturn leads (plain mark mem)⟩)

/-- Texts that differ in their first two characters. -/
theorem isPrefixOf_apart {front mark rest : List Char} (long : 2 ≤ front.length) (long' : 2 ≤ mark.length)
    (apart : front.take 2 ≠ mark.take 2) : front.isPrefixOf (mark ++ rest) = false := by
  rw [Bool.eq_false_iff]
  intro leads
  obtain ⟨more, split⟩ := List.isPrefixOf_iff_prefix.mp leads
  have both := congrArg (List.take 2) split
  rw [List.take_append_of_le_length long, List.take_append_of_le_length long'] at both
  exact apart both

/-- Metadata is no header and no notice. -/
theorem metadata_apart {line : List Char} (known : DiffParser.isMetadata line = true) :
    "diff --git ".toList.isPrefixOf line = false ∧ ['@', '@', ' ', '-'].isPrefixOf line = false ∧
      "Binary files ".toList.isPrefixOf line = false ∧ line ≠ "GIT binary patch".toList := by
  rw [DiffParser.isMetadata, Bool.or_eq_true] at known
  rcases known with empty | marked
  · rw [List.isEmpty_iff.mp empty]
    decide
  · obtain ⟨mark, mem, leads⟩ := List.any_eq_true.mp marked
    obtain ⟨rest, rfl⟩ := List.isPrefixOf_iff_prefix.mp leads
    have firsts : ∀ mark ∈ DiffParser.metadataMarks, 2 ≤ mark.toList.length ∧
        mark.toList.take 2 ∉ [['d', 'i'], ['@', '@'], ['B', 'i'], ['G', 'I']] := by decide
    obtain ⟨long, others⟩ := firsts mark mem
    simp only [List.mem_cons, List.not_mem_nil, or_false, not_or] at others
    obtain ⟨header, hunk, binary, patch⟩ := others
    refine ⟨isPrefixOf_apart (by decide) long (Ne.symm header),
      isPrefixOf_apart (by decide) long (Ne.symm hunk),
      isPrefixOf_apart (by decide) long (Ne.symm binary), fun same => patch ?_⟩
    rw [← @List.take_append_of_le_length _ _ rest _ long, same]
    decide

/-- A line of metadata makes its row. -/
theorem push_metadata {line : List Char} (known : DiffParser.isMetadata line = true)
    (done : List DiffRow) : DiffParser.push ⟨done, none⟩ .historicalDiffRows line =
      ⟨done ++ [.metadata (String.ofList line)], none⟩ := by
  obtain ⟨header, hunk, binary, patch⟩ := metadata_apart known
  have none_ : ActiveHunk.parse line = none := by simp [ActiveHunk.parse, hunk]
  have plain : ("Binary files ".toList.isPrefixOf line ||
      decide (line = "GIT binary patch".toList)) = false := by
    rw [binary, decide_eq_false patch]
    rfl
  rw [DiffParser.push, header, if_neg Bool.false_ne_true, none_]
  dsimp only
  rw [DiffParser.metadata, plain, if_neg Bool.false_ne_true, known, if_pos rfl]

/-- Reading the header lines makes rows of no hunk. -/
theorem readLines_headers {rows : List DiffRow} (follows : Follows none rows) (done : List DiffRow) :
    ∃ out, readLines ⟨done, none⟩ ((FileHeaders.lines rows).map fun line => dropReturn line.toList) =
      ⟨done ++ out, none⟩ ∧ out.filter DiffRow.isContent = [] ∧ Quiet out := by
  induction rows generalizing done with
  | nil => exact ⟨[], by rw [List.append_nil]; rfl, rfl, fun _ mem => (List.not_mem_nil mem).elim⟩
  | cons row rows ih =>
    have pushed : ∀ {text : String} {row : DiffRow}, row.isContent = false → row.isNotice = false →
        Follows none rows → DiffParser.push ⟨done, none⟩ .historicalDiffRows (dropReturn text.toList) =
          ⟨done ++ [row], none⟩ → ∃ out, readLines ⟨done, none⟩
            ((text :: FileHeaders.lines rows).map fun line => dropReturn line.toList) =
          ⟨done ++ out, none⟩ ∧ out.filter DiffRow.isContent = [] ∧ Quiet out := by
      intro text row noContent noNotice follows pushed
      obtain ⟨out, read, filtered, quiet⟩ := ih follows (done ++ [row])
      refine ⟨row :: out, ?_, ?_, List.forall_mem_cons.mpr ⟨noNotice, quiet⟩⟩
      · rw [List.map_cons, readLines, List.foldl_cons, pushed]
        exact read.trans (by rw [List.append_assoc, List.singleton_append])
      · rw [List.filter_cons_of_neg (by rw [noContent]; exact Bool.false_ne_true), filtered]
    cases row with
    | fileHeader oldPath newPath text =>
      obtain ⟨⟨-, leads, -⟩, follows⟩ := follows
      refine @pushed text (.fileHeader none none (String.ofList (dropReturn text.toList))) rfl rfl follows ?_
      rw [DiffParser.push, if_pos (isPrefixOf_dropReturn leads (by decide))]
      rfl
    | metadata text =>
      obtain ⟨⟨known, -⟩, follows⟩ := follows
      rw [FileHeaders.lines]
      split_ifs
      · exact ih follows done
      · exact pushed rfl rfl follows (push_metadata (isMetadata_dropReturn (known rfl)) done)
    | hunk => exact ⟨[], by rw [List.append_nil]; rfl, rfl, fun _ mem => (List.not_mem_nil mem).elim⟩
    | _ => exact follows.elim

/-! ## The whole text -/

/-- Lines joined by newlines, and a newline. -/
theorem intercalate_newline {lines : List String} (some_ : lines ≠ []) :
    ("\n".intercalate lines).toList ++ ['\n'] = closeAll '\n' (lines.map String.toList) := by
  have mark : "\n".toList = ['\n'] := rfl
  induction lines with
  | nil => exact absurd rfl some_
  | cons line lines ih =>
    cases lines with
    | nil => simp [closeAll]
    | cons next lines =>
      rw [String.intercalate_cons_of_ne_nil (List.cons_ne_nil next lines), String.toList_append,
        String.toList_append, mark, List.append_assoc _ _ ['\n'], ih (List.cons_ne_nil next lines)]
      rfl

/-- A parser takes the lines of a text that was joined from lines it takes. -/
theorem short_joined {text : List Char} {lines : List (List Char)}
    (joined : text ++ ['\n'] = closeAll '\n' lines) (own : ∀ line ∈ lines, IsTextLine line) :
    ∀ line ∈ (encode text).splitOnP isNewline, line.length ≤ maxLineBytes := by
  have bytes : encode text ++ 10 :: [] = closeAll 10 (lines.map encode) := by
    rw [← encode_closeAll, ← joined, encode_append]
    rfl
  have clean : ∀ line ∈ lines.map encode, (10 : UInt8) ∉ line := by
    intro line mem inside
    obtain ⟨chars, held, rfl⟩ := List.mem_map.mp mem
    exact (own chars held).1 (mem_encode newline_ascii inside)
  have parts := splitOn_closeAll clean
  rw [← bytes] at parts
  have split : (encode text ++ 10 :: []).splitOn 10 =
      (encode text).splitOnP isNewline ++ [].splitOnP isNewline :=
    List.splitOnP_append_cons _ _ rfl
  intro line mem
  have held : line ∈ lines.map encode ++ [[]] := by
    rw [← parts, split]
    exact List.mem_append_left _ mem
  rcases List.mem_append.mp held with held | held
  · obtain ⟨chars, inside, rfl⟩ := List.mem_map.mp held
    exact (own chars inside).2
  · rw [List.mem_singleton.mp held]
    exact Nat.zero_le _

/-- The lines of an excerpt. -/
def excerptLines (rows : List DiffRow) (hunks : List ExcerptHunk) : List String :=
  FileHeaders.lines rows ++ hunks.flatMap fun hunk => hunk.header :: hunk.lines

/-- A text is read as the lines it was joined from, if the last one has no carriage return. -/
theorem textLines_joined {text : List Char} {lines : List (List Char)} {last : List Char}
    (joined : text ++ ['\n'] = closeAll '\n' (lines ++ [last])) (clean : ∀ line ∈ lines, '\n' ∉ line)
    (plain : '\n' ∉ last) (some_ : last ≠ []) : textLines text = lines.map dropReturn ++ [last] := by
  have whole : text = closeAll '\n' lines ++ last := by
    rw [closeAll, List.flatMap_append, List.flatMap_singleton, ← List.append_assoc] at joined
    exact List.append_cancel_right joined
  subst whole
  clear joined
  induction lines with
  | nil =>
    have open_ : Unterminated (· == '\n') last :=
      ⟨some_, fun char mem => beq_eq_false_iff_ne.mpr fun same => plain (same ▸ mem)⟩
    have none_ : stripLast last '\n' = none :=
      if_neg fun ends => plain (List.mem_of_getLast? ends)
    rw [closeAll, List.flatMap_nil, List.nil_append, textLines, splitInclusive_unterminated open_,
      List.map_singleton, none_]
    rfl
  | cons line lines ih =>
    obtain ⟨first, clean⟩ := List.forall_mem_cons.mp clean
    have ends : Terminated (· == '\n') (line ++ ['\n']) :=
      ⟨line, '\n', rfl, rfl, fun char mem => beq_eq_false_iff_ne.mpr fun same => first (same ▸ mem)⟩
    rw [closeAll, List.flatMap_cons, List.append_assoc, textLines,
      splitInclusive_terminated_append ends, List.map_cons, stripLast_eq_some.mpr rfl]
    exact congrArg (dropReturn line :: ·) (ih clean)

theorem isTextLine_headers {rows : List DiffRow} (follows : Follows none rows) :
    ∀ line ∈ FileHeaders.lines rows, IsTextLine line.toList := by
  induction rows with
  | nil => exact fun _ mem => (List.not_mem_nil mem).elim
  | cons row rows ih =>
    cases row with
    | fileHeader => exact List.forall_mem_cons.mpr ⟨follows.1.2.2, ih follows.2⟩
    | metadata =>
      rw [FileHeaders.lines]
      split_ifs
      · exact ih follows.2
      · exact List.forall_mem_cons.mpr ⟨follows.1.2, ih follows.2⟩
    | hunk => exact fun _ mem => (List.not_mem_nil mem).elim
    | _ => exact follows.elim

/-- Numbered lines are ones that a parser takes. -/
theorem Numbered.texts {rows : List DiffRow} {a b : Nat} (numbered : Numbered a b rows)
    (isContent : ∀ row ∈ rows, row.isContent = true) :
    ∀ row ∈ rows, IsTextLine (contentText row).toList ∧ (contentText row).toList ≠ [] := by
  have marked : ∀ {marker : Char} {text : String}, MarkedText marker text →
      IsTextLine text.toList ∧ text.toList ≠ [] := by
    rintro marker text ⟨first, own⟩
    refine ⟨own, fun empty => ?_⟩
    rw [empty] at first
    cases first
  induction rows generalizing a b with
  | nil => exact fun _ mem => (List.not_mem_nil mem).elim
  | cons row rows ih =>
    obtain ⟨own, isContent⟩ := List.forall_mem_cons.mp isContent
    refine List.forall_mem_cons.mpr ⟨?_, ih numbered.tail isContent⟩
    cases row with
    | context => exact marked numbered.1.2.2
    | delete | add => exact marked numbered.1.2
    | _ => exact Bool.noConfusion own

/-- Every line written is a row's or the marker. -/
theorem ExcerptHunk.Written.forall {rows : List DiffRow} {lines : List String} (written : Written rows lines)
    {own : List Char → Prop} (texts : ∀ row ∈ rows, own (contentText row).toList)
    (marker : own noNewlineText.toList) : ∀ line ∈ lines, own line.toList := by
  induction rows generalizing lines with
  | nil =>
    obtain rfl : lines = [] := written
    exact fun _ mem => (List.not_mem_nil mem).elim
  | cons row rows ih =>
    obtain ⟨rest, same, written⟩ := written
    obtain ⟨first, texts⟩ := List.forall_mem_cons.mp texts
    have after := ih written texts
    rcases same with rfl | rfl
    · exact List.forall_mem_cons.mpr ⟨first, after⟩
    · exact List.forall_mem_cons.mpr ⟨first, List.forall_mem_cons.mpr ⟨marker, after⟩⟩

theorem ExcerptHunk.Reads.lines_ne_nil {hunk : ExcerptHunk} {rows : List DiffRow}
    (reads : hunk.Reads rows) : hunk.lines ≠ [] := by
  obtain ⟨some_, -, -, -, -, written⟩ := reads
  cases rows with
  | nil => exact absurd rfl some_
  | cons row rows =>
    obtain ⟨rest, same, -⟩ := written
    rcases same with same | same <;> rw [same] <;> exact List.cons_ne_nil _ _

/-- An excerpt joins its lines. -/
theorem joined_excerpt {hunks : List ExcerptHunk} (some_ : ∀ hunk ∈ hunks, hunk.lines ≠ [])
    {text : String} {lines : List String}
    (joined : text.toList ++ ['\n'] = closeAll '\n' (lines.map String.toList)) :
    (text ++ String.join (hunks.map (·.text))).toList ++ ['\n'] = closeAll '\n'
      ((lines ++ hunks.flatMap fun hunk => hunk.header :: hunk.lines).map String.toList) := by
  induction hunks generalizing text lines with
  | nil =>
    rw [List.map_nil, String.join_nil, String.append_empty, List.flatMap_nil, List.append_nil]
    exact joined
  | cons hunk hunks ih =>
    obtain ⟨own, some_⟩ := List.forall_mem_cons.mp some_
    have mark : "\n".toList = ['\n'] := rfl
    have next : (text ++ hunk.text).toList ++ ['\n'] =
        closeAll '\n' ((lines ++ (hunk.header :: hunk.lines)).map String.toList) := by
      have last := intercalate_newline own
      rw [List.map_append, closeAll, List.flatMap_append]
      rw [closeAll] at joined
      rw [← joined, List.map_cons, List.flatMap_cons]
      rw [closeAll] at last
      rw [← last]
      simp only [ExcerptHunk.text, String.toList_append, mark, List.append_assoc]
    have whole := ih some_ next
    rw [List.map_cons, String.join_cons, ← String.append_assoc, List.flatMap_cons, ← List.append_assoc]
    exact whole

end ProgressiveReviewer.Parsers
