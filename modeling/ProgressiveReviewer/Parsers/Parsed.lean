import ProgressiveReviewer.Hunks.RoundTrip
import ProgressiveReviewer.Parsers.Excerpt

/-! Rows that were parsed without notices (`review-repository/src/diff.rs`): the rows of a hunk are
numbered one after another, and its header counts them. -/

namespace ProgressiveReviewer.Parsers

open Library Library.Extent Hunks Marks

/-- A line that a parser takes. -/
def IsTextLine (line : List Char) : Prop := '\n' ∉ line ∧ (encode line).length ≤ maxLineBytes

/-- The text of a row with a marker. -/
def MarkedText (marker : Char) (text : String) : Prop :=
  text.toList.head? = some marker ∧ IsTextLine text.toList

/-- Rows whose lines are numbered one after another. -/
def Numbered : Nat → Nat → List DiffRow → Prop
  | _, _, [] => True
  | a, b, .context oldLine newLine text :: rows =>
    (oldLine = a ∧ newLine = b ∧ MarkedText ' ' text) ∧ Numbered (a + 1) (b + 1) rows
  | a, b, .delete oldLine text :: rows =>
    (oldLine = a ∧ MarkedText '-' text) ∧ Numbered (a + 1) b rows
  | a, b, .add newLine text :: rows =>
    (newLine = b ∧ MarkedText '+' text) ∧ Numbered a (b + 1) rows
  | a, b, _ :: rows => Numbered a b rows

/-- Whether a hunk that ends here has all its lines. -/
def Ended (hunk : Option ActiveHunk) : Prop := ∀ active ∈ hunk, active.isComplete = true

/-- Rows that come after a hunk was read so far, without notices. -/
def Follows : Option ActiveHunk → List DiffRow → Prop
  | hunk, [] => Ended hunk
  | hunk, .fileHeader _ _ text :: rows => (Ended hunk ∧
      "diff --git ".toList.isPrefixOf text.toList = true ∧ IsTextLine text.toList) ∧ Follows none rows
  | hunk, .hunk oldStart oldCount newStart newCount :: rows =>
    Ended hunk ∧ Follows (some ⟨oldStart, oldCount, newStart, newCount, 0, 0⟩) rows
  | hunk, .metadata text :: rows =>
    ((hunk = none → DiffParser.isMetadata text.toList = true) ∧ IsTextLine text.toList) ∧
      Follows hunk rows
  | some active, .context oldLine newLine text :: rows =>
    (oldLine = active.oldStart + active.oldSeen ∧ newLine = active.newStart + active.newSeen ∧
      MarkedText ' ' text) ∧ Follows (some (active.advance (some ' '))) rows
  | some active, .delete oldLine text :: rows =>
    (oldLine = active.oldStart + active.oldSeen ∧ MarkedText '-' text) ∧
      Follows (some (active.advance (some '-'))) rows
  | some active, .add newLine text :: rows =>
    (newLine = active.newStart + active.newSeen ∧ MarkedText '+' text) ∧
      Follows (some (active.advance (some '+'))) rows
  | _, _ => False

/-! ## What a parser makes -/

/-- Rows make no notice. -/
def Quiet (rows : List DiffRow) : Prop := ∀ row ∈ rows, row.isNotice = false

theorem not_quiet {row : DiffRow} {rows : List DiffRow} (mem : row ∈ rows)
    (notice : row.isNotice = true) : ¬ Quiet rows := fun quiet =>
  Bool.false_ne_true ((quiet row mem).symm.trans notice)

/-- Closing a hunk adds a notice, or it was complete. -/
theorem finishHunk_rows (parser : DiffParser) : parser.finishHunk.hunk = none ∧
    ((Ended parser.hunk ∧ parser.finishHunk.rows = parser.rows) ∨
      parser.finishHunk.rows = parser.rows ++ [countNotice]) := by
  obtain ⟨rows, _ | hunk⟩ := parser
  · exact ⟨rfl, .inl ⟨fun _ mem => (Option.not_mem_none _ mem).elim, rfl⟩⟩
  · refine ⟨rfl, ?_⟩
    simp only [DiffParser.finishHunk]
    split_ifs with complete
    · refine .inl ⟨fun active mem => ?_, rfl⟩
      rwa [← Option.mem_some.mp mem]
    · exact .inr rfl

theorem follows_metadata {line : List Char} (own : IsTextLine line) {rows : List DiffRow}
    (quiet : (DiffParser.metadata line).isNotice = false) (follows : Follows none rows) :
    Follows none (DiffParser.metadata line :: rows) := by
  unfold DiffParser.metadata at quiet ⊢
  split_ifs at quiet ⊢ with binary known
  · exact absurd quiet (by simp [binaryNotice, DiffRow.isNotice])
  · exact ⟨⟨fun _ => by rwa [String.toList_ofList], by rwa [String.toList_ofList]⟩, follows⟩
  · exact absurd quiet (by simp [DiffRow.isNotice])

/-- A line of a hunk makes the next row. -/
theorem follows_push {line : List Char} (own : IsTextLine line) {hunk : ActiveHunk}
    {rows : List DiffRow} (quiet : (hunk.push .historicalDiffRows line).2.isNotice = false)
    (follows : Follows (some (hunk.push .historicalDiffRows line).1) rows) :
    Follows (some hunk) ((hunk.push .historicalDiffRows line).2 :: rows) := by
  have marked : ∀ {marker : Char}, line.head? = some marker →
      MarkedText marker (String.ofList line) := fun first =>
    ⟨by rwa [String.toList_ofList], by rwa [String.toList_ofList]⟩
  revert quiet follows
  unfold ActiveHunk.push
  split_ifs with unended conflict
  · exact fun _ follows => ⟨⟨(fun isNone => by cases isNone), by rwa [String.toList_ofList]⟩, follows⟩
  · exact absurd conflict.1 (by decide)
  · split
    · next first => exact fun _ follows => ⟨⟨rfl, rfl, marked first⟩, follows⟩
    · next first => exact fun _ follows => ⟨⟨rfl, marked first⟩, follows⟩
    · next first => exact fun _ follows => ⟨⟨rfl, marked first⟩, follows⟩
    · exact fun quiet => absurd quiet (by simp [DiffRow.isNotice])

theorem parse_unread {line : List Char} {hunk : ActiveHunk} (parsed : ActiveHunk.parse line = some hunk) :
    hunk = ⟨hunk.oldStart, hunk.oldCount, hunk.newStart, hunk.newCount, 0, 0⟩ := by
  by_cases leads : ['@', '@', ' ', '-'].isPrefixOf line = true
  · simp only [ActiveHunk.parse, if_pos leads, Option.bind_eq_bind, Option.bind_some,
      Option.bind_eq_some_iff, Option.some.injEq] at parsed
    obtain ⟨_, -, _, -, _, -, _, -, rfl⟩ := parsed
    rfl
  · simp [ActiveHunk.parse, leads] at parsed

/-- What a parser adds to its rows comes after them, unless it adds a notice. -/
theorem follows_foldl {lines : List (List Char)} (own : ∀ line ∈ lines, IsTextLine line)
    (parser : DiffParser) : ∃ more, (lines.foldl (fun parser line =>
        DiffParser.push parser .historicalDiffRows line) parser).finishHunk.rows =
      parser.rows ++ more ∧ (Quiet more → Follows parser.hunk more) := by
  induction lines generalizing parser with
  | nil =>
    obtain ⟨-, ⟨ended, rows⟩ | rows⟩ := finishHunk_rows parser
    · exact ⟨[], by rw [List.foldl_nil, rows, List.append_nil], fun _ => ended⟩
    · exact ⟨[countNotice], rows, fun quiet => absurd quiet (not_quiet List.mem_cons_self rfl)⟩
  | cons line lines ih =>
    obtain ⟨first, own⟩ := List.forall_mem_cons.mp own
    -- A header closes the hunk before it.
    have closes : ∀ (row : DiffRow) (hunk : Option ActiveHunk),
        parser.push .historicalDiffRows line = ⟨parser.finishHunk.rows ++ [row], hunk⟩ →
        (∀ more, Ended parser.hunk → Follows hunk more → Follows parser.hunk (row :: more)) →
        ∃ more, ((line :: lines).foldl (fun parser line =>
            DiffParser.push parser .historicalDiffRows line) parser).finishHunk.rows =
          parser.rows ++ more ∧ (Quiet more → Follows parser.hunk more) := by
      intro row hunk pushed after
      obtain ⟨more, same, follows⟩ := ih own ⟨parser.finishHunk.rows ++ [row], hunk⟩
      rw [List.foldl_cons, pushed, same]
      obtain ⟨-, ⟨ended, rows⟩ | rows⟩ := finishHunk_rows parser
      · refine ⟨row :: more, by simp [rows], fun quiet => after more ended (follows ?_)⟩
        exact fun row mem => quiet row (List.mem_cons_of_mem _ mem)
      · refine ⟨countNotice :: row :: more, by simp [rows], fun quiet => ?_⟩
        exact absurd quiet (not_quiet List.mem_cons_self rfl)
    by_cases header : "diff --git ".toList.isPrefixOf line = true
    · refine closes (.fileHeader none none (String.ofList line)) none ?_ fun more ended follows => ?_
      · rw [DiffParser.push, if_pos header]
        exact congrArg (DiffParser.mk _) (finishHunk_rows parser).1
      · have same : (String.ofList line).toList = line := String.toList_ofList
        exact ⟨⟨ended, same.symm ▸ header, same.symm ▸ first⟩, follows⟩
    · cases parsed : ActiveHunk.parse line with
      | some hunk =>
        refine closes hunk.header (some hunk) ?_ fun more ended follows => ⟨ended, ?_⟩
        · rw [DiffParser.push, if_neg header, parsed]
        · rwa [← parse_unread parsed]
      | none =>
        obtain ⟨rows, _ | hunk⟩ := parser
        · obtain ⟨more, same, follows⟩ := ih own ⟨rows ++ [DiffParser.metadata line], none⟩
          refine ⟨DiffParser.metadata line :: more, ?_, fun quiet => ?_⟩
          · rw [List.foldl_cons, DiffParser.push, if_neg header, parsed]
            dsimp only
            rw [same, List.append_assoc, List.singleton_append]
          · exact follows_metadata first (quiet _ List.mem_cons_self)
              (follows fun row mem => quiet row (List.mem_cons_of_mem _ mem))
        · obtain ⟨more, same, follows⟩ := ih own
            ⟨rows ++ [(hunk.push .historicalDiffRows line).2],
              some (hunk.push .historicalDiffRows line).1⟩
          refine ⟨(hunk.push .historicalDiffRows line).2 :: more, ?_, fun quiet => ?_⟩
          · rw [List.foldl_cons, DiffParser.push, if_neg header, parsed]
            dsimp only
            rw [same, List.append_assoc, List.singleton_append]
          · exact follows_push first (quiet _ List.mem_cons_self)
              (follows fun row mem => quiet row (List.mem_cons_of_mem _ mem))

theorem stripLast_eq_some {line body : List Char} {char : Char} :
    stripLast line char = some body ↔ line = body ++ [char] := by
  unfold stripLast
  constructor
  · intro stripped
    split_ifs at stripped with ends
    obtain ⟨body', rfl⟩ := List.getLast?_eq_some_iff.mp ends
    rw [List.dropLast_concat] at stripped
    rw [Option.some.inj stripped]
  · rintro rfl
    rw [if_pos List.getLast?_concat, List.dropLast_concat]

theorem dropReturn_eq (line : List Char) : line = dropReturn line ∨ line = dropReturn line ++ ['\r'] := by
  unfold dropReturn
  cases stripped : stripLast line '\r' with
  | none => exact .inl rfl
  | some body => exact .inr (stripLast_eq_some.mp stripped)

theorem IsTextLine.dropReturn {line : List Char} (own : IsTextLine line) :
    IsTextLine (Hunks.dropReturn line) := by
  rcases dropReturn_eq line with same | same
  · rwa [← same]
  · rw [same] at own
    obtain ⟨clean, short⟩ := own
    rw [encode_append, List.length_append] at short
    exact ⟨fun mem => clean (List.mem_append_left _ mem), by omega⟩

/-- The lines of a text whose parts are short enough. -/
theorem isTextLine_textLines {chars : List Char}
    (short : ∀ line ∈ (encode chars).splitOnP isNewline, line.length ≤ maxLineBytes) :
    ∀ line ∈ textLines chars, IsTextLine line := by
  have list : LineList isNewline ((splitInclusive (· == '\n') chars).map encode) := by
    rw [← splitInclusive_encode]
    exact lineList_splitInclusive _
  have whole : ((splitInclusive (· == '\n') chars).map encode).flatten = encode chars := by
    rw [← splitInclusive_encode]
    exact flatten_splitInclusive _
  intro line mem
  obtain ⟨own, held, rfl⟩ := List.mem_map.mp mem
  obtain ⟨part, inside, clean, same⟩ := list.parts (encode own) (List.mem_map_of_mem held)
  rw [whole] at inside
  have small := short part inside
  have plain : ∀ {chars : List Char}, encode chars = part → IsTextLine chars := by
    rintro chars rfl
    refine ⟨fun mem => ?_, small⟩
    have byte : (10 : UInt8) ∈ encode chars :=
      List.mem_flatMap.mpr ⟨'\n', mem, List.mem_singleton.mpr rfl⟩
    exact absurd (clean 10 byte) (by decide)
  cases stripped : stripLast own '\n' with
  | none =>
    rcases same with same | ⟨last, ends, same⟩
    · exact plain same
    · obtain rfl : last = 10 := by simpa [isNewline] using ends
      obtain ⟨body, split, -⟩ := encode_eq_concat newline_ascii same
      rw [stripLast_eq_some.mpr split] at stripped
      cases stripped
  | some body =>
    have split := stripLast_eq_some.mp stripped
    have bytes : encode own = encode body ++ [10] := by
      rw [split, encode_append]
      rfl
    have own_ : encode body = part := by
      rcases same with same | ⟨last, ends, same⟩
      · have byte : (10 : UInt8) ∈ part := by
          rw [← same, bytes]
          exact List.mem_append_right _ (List.mem_singleton_self _)
        exact absurd (clean 10 byte) (by decide)
      · exact (List.append_inj' (bytes.symm.trans same) rfl).1
    exact (plain own_).dropReturn

theorem bytesOf_fromUTF8 {output : Bytes} {text : String}
    (read : String.fromUTF8? ⟨output.toArray⟩ = some text) : bytesOf text = output := by
  unfold String.fromUTF8? at read
  split_ifs at read with valid
  obtain rfl := Option.some.inj read
  rfl

/-- Without notices, a text was parsed line by line. -/
theorem follows_parse {output : Bytes}
    (quiet : Quiet (DiffParser.parseWithConflictMarkers output .historicalDiffRows)) :
    Follows none (DiffParser.parseWithConflictMarkers output .historicalDiffRows) := by
  rw [DiffParser.parseWithConflictMarkers] at quiet ⊢
  split_ifs at quiet ⊢ with long
  · exact absurd quiet (not_quiet List.mem_cons_self rfl)
  · cases read : String.fromUTF8? ⟨output.toArray⟩ with
    | none =>
      rw [read] at quiet
      exact absurd quiet (not_quiet List.mem_cons_self rfl)
    | some text =>
      rw [read] at quiet
      have bytes := bytesOf_fromUTF8 read
      have own : ∀ line ∈ textLines text.toList, IsTextLine line := by
        refine isTextLine_textLines fun line mem => ?_
        rw [← bytesOf_eq, bytes] at mem
        simp only [List.any_eq_true, decide_eq_true_eq, not_exists, not_and, Nat.not_lt] at long
        exact long line mem
      obtain ⟨more, same, follows⟩ := follows_foldl own ⟨[], none⟩
      rw [List.nil_append] at same
      dsimp only at quiet ⊢
      rw [same] at quiet ⊢
      exact follows quiet

/-- The paths of a header do not matter to what follows. -/
theorem follows_withPaths {file : Marks.ChangedFile} {hunk : Option ActiveHunk} {rows : List DiffRow}
    (follows : Follows hunk rows) : Follows hunk (rows.map (withPaths file)) := by
  induction rows generalizing hunk with
  | nil => exact follows
  | cons row rows ih =>
    cases row <;> cases hunk <;>
      first | exact follows.elim | exact ⟨follows.1, ih follows.2⟩

/-- The paths of a header are none of its lines. -/
theorem paths_content (file : Marks.ChangedFile) (rows : List DiffRow) :
    (Quiet (rows.map (withPaths file)) ↔ Quiet rows) ∧
      (rows.map (withPaths file)).filter DiffRow.isContent = rows.filter DiffRow.isContent := by
  induction rows with
  | nil => exact ⟨Iff.rfl, rfl⟩
  | cons row rows ih =>
    simp only [Quiet, List.map_cons, List.forall_mem_cons, List.filter_cons] at ih ⊢
    rw [ih.1, ih.2]
    cases row <;> exact ⟨Iff.rfl, rfl⟩

/-- A file whose diff can be parsed without notices is read like any other. -/
theorem parseFileDiff_of_quiet {output : Bytes} {file : Marks.ChangedFile}
    (quiet : Quiet (parseFileDiff output file)) (output' : Bytes) : parseFileDiff output' file =
      (DiffParser.parseWithConflictMarkers output' .historicalDiffRows).map (withPaths file) := by
  by_cases symlink : file.oldKind = .symlink ∨ file.newKind = .symlink
  · rw [parseFileDiff, if_pos symlink] at quiet
    exact absurd quiet (not_quiet List.mem_cons_self rfl)
  by_cases gitlink : file.oldKind = .gitlink ∨ file.newKind = .gitlink
  · rw [parseFileDiff, if_neg symlink, if_pos gitlink] at quiet
    exact absurd quiet (not_quiet List.mem_cons_self rfl)
  by_cases conflict : file.newKind = .conflict
  · rw [parseFileDiff, if_neg symlink, if_neg gitlink] at quiet
    dsimp only at quiet
    rw [if_pos conflict] at quiet
    split_ifs at quiet with missing
    · exact absurd quiet (not_quiet List.mem_cons_self rfl)
    · obtain ⟨row, mem, own⟩ := List.any_eq_true.mp
        (Bool.eq_true_of_not_eq_false fun none_ => missing ⟨rfl, none_⟩)
      refine absurd quiet (not_quiet mem ?_)
      unfold isConflictNotice at own
      split at own
      · rfl
      · cases own
  · rw [parseFileDiff, if_neg symlink, if_neg gitlink]
    dsimp only
    rw [if_neg conflict, if_neg fun both => by cases both.1]

/-! ## The rows of a hunk -/

/-- The rows up to the next hunk. -/
def body (rows : List DiffRow) : List DiffRow := rows.takeWhile fun row => !isHunk row

theorem body_cons {row : DiffRow} (own : isHunk row = false) (rows : List DiffRow) :
    body (row :: rows) = row :: body rows := List.takeWhile_cons_of_pos (by rw [own]; rfl)

theorem body_hunk (oldStart oldCount newStart newCount : Nat) (rows : List DiffRow) :
    body (.hunk oldStart oldCount newStart newCount :: rows) = [] :=
  List.takeWhile_cons_of_neg Bool.false_ne_true

/-- Outside a hunk there are no lines. -/
theorem Follows.outside {rows : List DiffRow} (follows : Follows none rows) :
    ∀ row ∈ body rows, row.isContent = false := by
  induction rows with
  | nil => exact fun _ mem => (List.not_mem_nil mem).elim
  | cons row rows ih =>
    cases row with
    | hunk =>
      rw [body_hunk]
      exact fun _ mem => (List.not_mem_nil mem).elim
    | fileHeader | metadata =>
      rw [body_cons rfl, List.forall_mem_cons]
      exact ⟨rfl, ih follows.2⟩
    | _ => exact follows.elim

/-- Rows without lines are numbered anyhow. -/
theorem numbered_nothing {rows : List DiffRow} (none_ : ∀ row ∈ rows, row.isContent = false) (a b : Nat) :
    Numbered a b rows ∧ rows.countP isOld = 0 ∧ rows.countP isNew = 0 := by
  induction rows with
  | nil => exact ⟨trivial, rfl, rfl⟩
  | cons row rows ih =>
    obtain ⟨own, none_⟩ := List.forall_mem_cons.mp none_
    obtain ⟨numbered, old, new⟩ := ih none_
    cases row <;> first | exact Bool.noConfusion own | exact ⟨numbered, old, new⟩

/-- The rows of a hunk are numbered, and all of them are there. -/
theorem Follows.inside {active : ActiveHunk} {rows : List DiffRow}
    (follows : Follows (some active) rows) :
    Numbered (active.oldStart + active.oldSeen) (active.newStart + active.newSeen) (body rows) ∧
      active.oldSeen + (body rows).countP isOld = active.oldCount ∧
      active.newSeen + (body rows).countP isNew = active.newCount := by
  have counted : ∀ active : ActiveHunk, Ended (some active) →
      active.oldSeen = active.oldCount ∧ active.newSeen = active.newCount := by
    intro active ended
    simpa [ActiveHunk.isComplete] using ended active rfl
  induction rows generalizing active with
  | nil => exact ⟨trivial, counted active follows⟩
  | cons row rows ih =>
    cases row with
    | hunk =>
      rw [body_hunk]
      exact ⟨trivial, counted active follows.1⟩
    | fileHeader =>
      rw [body_cons rfl]
      obtain ⟨numbered, old, new⟩ := numbered_nothing follows.2.outside
        (active.oldStart + active.oldSeen) (active.newStart + active.newSeen)
      rw [List.countP_cons_of_neg Bool.false_ne_true, List.countP_cons_of_neg Bool.false_ne_true, old, new]
      exact ⟨numbered, counted active follows.1.1⟩
    | metadata =>
      rw [body_cons rfl, List.countP_cons_of_neg Bool.false_ne_true,
        List.countP_cons_of_neg Bool.false_ne_true]
      exact ih follows.2
    | context =>
      obtain ⟨own, follows⟩ := follows
      obtain ⟨numbered, old, new⟩ := ih follows
      rw [body_cons rfl, List.countP_cons_of_pos rfl, List.countP_cons_of_pos rfl]
      simp only [ActiveHunk.advance] at numbered old new
      exact ⟨⟨own, numbered⟩, by omega, by omega⟩
    | delete =>
      obtain ⟨own, follows⟩ := follows
      obtain ⟨numbered, old, new⟩ := ih follows
      rw [body_cons rfl, List.countP_cons_of_pos rfl, List.countP_cons_of_neg Bool.false_ne_true]
      simp only [ActiveHunk.advance] at numbered old new
      exact ⟨⟨own, numbered⟩, by omega, by omega⟩
    | add =>
      obtain ⟨own, follows⟩ := follows
      obtain ⟨numbered, old, new⟩ := ih follows
      rw [body_cons rfl, List.countP_cons_of_neg Bool.false_ne_true, List.countP_cons_of_pos rfl]
      simp only [ActiveHunk.advance] at numbered old new
      exact ⟨⟨own, numbered⟩, by omega, by omega⟩
    | notice => exact follows.elim

/-- What is parsed without notices. -/
theorem follows_parseFileDiff {output : Bytes} {file : Marks.ChangedFile}
    (quiet : Quiet (parseFileDiff output file)) : Follows none (parseFileDiff output file) := by
  have same := parseFileDiff_of_quiet quiet output
  rw [same] at quiet ⊢
  exact follows_withPaths (follows_parse ((paths_content file _).1.mp quiet))

end ProgressiveReviewer.Parsers
