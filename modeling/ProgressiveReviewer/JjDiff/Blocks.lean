import ProgressiveReviewer.JjDiff.Parser

/-! The lines of a rendered patch: which of them lead a block or a hunk, and what they count. -/

namespace ProgressiveReviewer.JjDiff

open Library Hunks Marks

/-! Lines of hunks. -/

def noNewlineRemark : Bytes := bytesOf "\\ No newline at end of file"

/-- The lines that one line of a hunk is written as. -/
def lineParts (line : DiffLineType × List Bytes) : List Bytes :=
  let text := line.1.marker :: line.2.flatten
  if text.getLast? = some 10 then [text.dropLast] else [text, noNewlineRemark]

def hunkHeader (hunk : UnifiedDiffHunk) : Bytes :=
  bytesOf "@@ -" ++ decimal (headerStart hunk.left) ++ bytesOf "," ++
    decimal (hunk.left.stop - hunk.left.start) ++ bytesOf " +" ++ decimal (headerStart hunk.right) ++
    bytesOf "," ++ decimal (hunk.right.stop - hunk.right.start) ++ bytesOf " @@"

def hunkLines (hunk : UnifiedDiffHunk) : List Bytes :=
  hunkHeader hunk :: hunk.lines.flatMap lineParts

def GitPatch.bodyLines (algorithm : HunkAlgorithm) (patch : GitPatch) : List Bytes :=
  (patch.hunks algorithm).flatMap hunkLines

theorem closeAll_lineParts (line : DiffLineType × List Bytes) :
    closeAll 10 (lineParts line) = writeLine line := by
  have remark : noFinalNewline = [10] ++ noNewlineRemark ++ [10] := by decide
  unfold lineParts writeLine
  dsimp only
  split_ifs with ends
  · obtain ⟨body, whole⟩ := List.getLast?_eq_some_iff.mp ends
    rw [whole, List.dropLast_concat]
    simp [closeAll]
  · rw [remark]
    simp [closeAll]

theorem closeAll_hunkLines (hunk : UnifiedDiffHunk) : closeAll 10 (hunkLines hunk) = writeHunk hunk := by
  have lines : closeAll 10 (hunk.lines.flatMap lineParts) = hunk.lines.flatMap writeLine := by
    rw [closeAll, List.flatMap_assoc]
    exact List.flatMap_congr fun line _ => closeAll_lineParts line
  have ends : bytesOf " @@\n" = bytesOf " @@" ++ [10] := by decide
  rw [hunkLines, ← List.append_nil (closeAll ..), closeAll_cons, lines, hunkHeader, writeHunk, ends]
  simp

theorem GitPatch.render_eq (algorithm : HunkAlgorithm) (patch : GitPatch) :
    patch.render algorithm = closeAll 10 (patch.headers ++ patch.bodyLines algorithm) := by
  rw [closeAll_append, GitPatch.bodyLines, GitPatch.render]
  refine congrArg (closeAll 10 patch.headers ++ ·) ?_
  rw [closeAll, List.flatMap_assoc]
  exact (List.flatMap_congr fun hunk _ => closeAll_hunkLines hunk).symm

/-! Where newlines stand. -/

/-- A line of a hunk is a line of one of the texts. -/
theorem HunkAlgorithm.line_mem (algorithm : HunkAlgorithm) {before after : Bytes} {context : Nat}
    {hunk : UnifiedDiffHunk} (held : hunk ∈ algorithm.hunks before after context)
    {line : DiffLineType × List Bytes} (mem : line ∈ hunk.lines) :
    line.2.flatten ∈ Lines.new before ∨ line.2.flatten ∈ Lines.new after := by
  have listed := List.mem_flatMap.mpr ⟨hunk, held, mem⟩
  by_cases kind : line.1 = .added
  · refine Or.inr ((algorithm.right_lines before after context).subset (List.mem_map.mpr
      ⟨line, List.mem_filter.mpr ⟨listed, decide_eq_true ?_⟩, rfl⟩))
    exact fun removed => nomatch kind.symm.trans removed
  · exact Or.inl ((algorithm.left_lines before after context).subset (List.mem_map.mpr
      ⟨line, List.mem_filter.mpr ⟨listed, decide_eq_true kind⟩, rfl⟩))

theorem isNewline_eq {byte : UInt8} : isNewline byte = true ↔ byte = 10 := by
  simp [isNewline]

theorem DiffLineType.marker_ne (kind : DiffLineType) : kind.marker ≠ 10 := by
  cases kind <;> decide

theorem newline_not_mem_lineParts {line : DiffLineType × List Bytes}
    (whole : Terminated isNewline line.2.flatten ∨ Unterminated isNewline line.2.flatten) :
    ∀ part ∈ lineParts line, 10 ∉ part := by
  have marker := line.1.marker_ne
  intro part mem
  unfold lineParts at mem
  dsimp only at mem
  rcases whole with ⟨body, last, text, ends, inside⟩ | ⟨-, inside⟩
  · obtain rfl := isNewline_eq.mp ends
    rw [text, ← List.cons_append, List.getLast?_concat, if_pos rfl, List.dropLast_concat] at mem
    obtain rfl := List.mem_singleton.mp mem
    refine fun held => ?_
    rcases List.mem_cons.mp held with same | held
    · exact marker same.symm
    · exact absurd (inside 10 held) (by decide)
  · have clean : 10 ∉ line.1.marker :: line.2.flatten := fun held => by
      rcases List.mem_cons.mp held with same | held
      · exact marker same.symm
      · exact absurd (inside 10 held) (by decide)
    rw [if_neg fun ends => clean (List.mem_of_getLast? ends)] at mem
    rcases List.mem_pair.mp mem with rfl | rfl
    · exact clean
    · decide

theorem newline_not_mem_decimal (n : Nat) : 10 ∉ decimal n :=
  fun mem => absurd (isDigit_decimal _ mem) (by decide)

theorem newline_not_mem_hunkHeader (hunk : UnifiedDiffHunk) : 10 ∉ hunkHeader hunk := by
  simp only [hunkHeader, List.mem_append, newline_not_mem_decimal, or_false]
  decide

/-- A line of a hunk is written as a marked line, with a remark after it or alone. -/
theorem lineParts_cases (line : DiffLineType × List Bytes) :
    ∃ text, text.head? = some line.1.marker ∧
      (lineParts line = [text] ∨ lineParts line = [text, noNewlineRemark]) := by
  have marker := line.1.marker_ne
  unfold lineParts
  dsimp only
  split_ifs with ends
  · refine ⟨_, ?_, Or.inl rfl⟩
    cases text : line.2.flatten with
    | nil =>
      rw [text] at ends
      exact absurd (Option.some.inj ends) marker
    | cons byte rest => rfl
  · exact ⟨_, rfl, Or.inr rfl⟩

/-! Lines of headers. -/

/-- How the lines of a header start that name no path by themselves, its first line apart. -/
def plainLeads : List Bytes :=
  ["new file mode ", "deleted file mode ", "old mode ", "new mode ", "index ", "Binary files "].map
    bytesOf

/-- How the lines of a header start, its first line apart. -/
def lineLeads : List Bytes :=
  plainLeads ++ ["rename from ", "rename to ", "--- ", "+++ "].map bytesOf

/-- Words of which none starts with the other do not lead one line. -/
theorem not_leads {lead line pattern : Bytes} (leads : lead <+: line)
    (apart : ¬pattern <+: lead ∧ ¬lead <+: pattern) : ¬pattern <+: line :=
  fun other => (List.prefix_or_prefix_of_prefix other leads).elim apart.1 apart.2

namespace GitPatch

variable (patch : GitPatch)

theorem clean_old : 10 ∉ patch.old.bytes := newline_not_mem_bytes (by decide) _

theorem clean_new : 10 ∉ patch.new.bytes := newline_not_mem_bytes (by decide) _

/-- A line after a word that may lead it. -/
theorem led_line {leads : List Bytes} {lead : Bytes} (held : lead ∈ leads ∧ 10 ∉ lead)
    {rest : Bytes} (clean : 10 ∉ rest) :
    10 ∉ lead ++ rest ∧ ∃ own ∈ leads, own <+: lead ++ rest := by
  refine ⟨fun mem => ?_, lead, held.1, List.prefix_append ..⟩
  rcases List.mem_append.mp mem with own | own
  · exact held.2 own
  · exact clean own

theorem modeLines_led :
    ∀ line ∈ patch.modeLines, 10 ∉ line ∧ ∃ own ∈ plainLeads, own <+: line := by
  have before := patch.before.mode_line
  have after := patch.after.mode_line
  intro line mem
  unfold modeLines at mem
  split at mem
  · next mode _ written =>
    obtain rfl := List.mem_singleton.mp mem
    exact led_line (by decide) (after mode written)
  · next mode written _ =>
    obtain rfl := List.mem_singleton.mp mem
    exact led_line (by decide) (before mode written)
  · next old new written rewritten =>
    split_ifs at mem
    · rcases List.mem_pair.mp mem with rfl | rfl
      · exact led_line (by decide) (before old written)
      · exact led_line (by decide) (after new rewritten)
    · cases mem
  · cases mem

theorem renameLines_led :
    ∀ line ∈ patch.renameLines, 10 ∉ line ∧ ∃ own ∈ lineLeads, own <+: line := by
  have clean (path : RepoPath) : 10 ∉ (GitPath.new [] path).bytes :=
    newline_not_mem_bytes List.not_mem_nil path
  intro line mem
  unfold renameLines at mem
  split_ifs at mem
  · rcases List.mem_pair.mp mem with rfl | rfl
    · exact led_line (by decide) (clean _)
    · exact led_line (by decide) (clean _)
  · cases mem

theorem sideLines_led : ∀ line ∈ patch.sideLines, 10 ∉ line ∧ ∃ own ∈ lineLeads, own <+: line := by
  have old := patch.clean_old
  have new := patch.clean_new
  have absent : (10 : UInt8) ∉ bytesOf "/dev/null" := by decide
  have between : (10 : UInt8) ∉ bytesOf " and " := by decide
  have closing : (10 : UInt8) ∉ bytesOf " differ" := by decide
  intro line mem
  unfold sideLines at mem
  split_ifs at mem
  · obtain rfl := List.mem_singleton.mp mem
    simp only [List.append_assoc]
    refine led_line (by decide) fun held => ?_
    simp only [List.mem_append] at held
    tauto
  all_goals
    rcases List.mem_pair.mp mem with rfl | rfl
    · exact led_line (by decide) ‹_›
    · exact led_line (by decide) ‹_›

def firstLine : Bytes := diffHeader ++ patch.old.bytes ++ [32] ++ patch.new.bytes

/-- The header after its first line. -/
def laterLines : List Bytes :=
  patch.modeLines ++ patch.renameLines ++
    [bytesOf "index " ++ patch.before.hash ++ bytesOf ".." ++ patch.after.hash] ++ patch.sideLines

theorem headers_eq : patch.headers = patch.firstLine :: patch.laterLines := by
  simp [headers, firstLine, laterLines, diffHeader]

theorem laterLines_led :
    ∀ line ∈ patch.laterLines, 10 ∉ line ∧ ∃ own ∈ lineLeads, own <+: line := by
  have before := patch.before.hash_line
  have after := patch.after.hash_line
  have between : (10 : UInt8) ∉ bytesOf ".." := by decide
  intro line mem
  simp only [laterLines, List.mem_append, List.mem_singleton] at mem
  rcases mem with ((mode | rename) | rfl) | side
  · obtain ⟨clean, own, held, leads⟩ := patch.modeLines_led line mode
    exact ⟨clean, own, List.mem_append_left _ held, leads⟩
  · exact patch.renameLines_led line rename
  · simp only [List.append_assoc]
    refine led_line (by decide) fun held => ?_
    simp only [List.mem_append] at held
    tauto
  · exact patch.sideLines_led line side

theorem clean_firstLine : 10 ∉ patch.firstLine := by
  have old := patch.clean_old
  have new := patch.clean_new
  have lead : (10 : UInt8) ∉ diffHeader := by decide
  have space : (10 : UInt8) ∉ ([32] : Bytes) := by decide
  simp only [firstLine, List.mem_append]
  tauto

theorem clean_headers : ∀ line ∈ patch.headers, 10 ∉ line := by
  rw [headers_eq]
  exact List.forall_mem_cons.mpr
    ⟨patch.clean_firstLine, fun line mem => (patch.laterLines_led line mem).1⟩

/-- Later lines of a header start neither a block nor a hunk. -/
theorem laterLines_plain : ∀ line ∈ patch.laterLines,
    10 ∉ line ∧ ¬diffHeader <+: line ∧ ¬bytesOf "@@ " <+: line := by
  have differ : ∀ lead ∈ lineLeads, (¬diffHeader <+: lead ∧ ¬lead <+: diffHeader) ∧
      (¬bytesOf "@@ " <+: lead ∧ ¬lead <+: bytesOf "@@ ") := by decide
  intro line mem
  obtain ⟨clean, lead, held, leads⟩ := patch.laterLines_led line mem
  obtain ⟨block, hunk⟩ := differ lead held
  exact ⟨clean, not_leads leads block, not_leads leads hunk⟩

variable (algorithm : HunkAlgorithm)

/-- The lines of a body start no block. -/
theorem bodyLines_plain :
    ∀ line ∈ patch.bodyLines algorithm, 10 ∉ line ∧ ¬diffHeader <+: line := by
  have first : diffHeader.head? = some 100 := by decide
  have start {line : Bytes} (leads : diffHeader <+: line) : line.head? = some 100 := by
    obtain ⟨rest, rfl⟩ := leads
    rw [List.head?_append, first, Option.some_or]
  intro line mem
  obtain ⟨hunk, held, own⟩ := List.mem_flatMap.mp mem
  rcases List.mem_cons.mp own with rfl | own
  · refine ⟨newline_not_mem_hunkHeader hunk, ?_⟩
    have leads : bytesOf "@@ -" <+: hunkHeader hunk := by
      simp only [hunkHeader, List.append_assoc]
      exact List.prefix_append ..
    exact not_leads leads (by decide)
  · obtain ⟨listed, mem, part⟩ := List.mem_flatMap.mp own
    have whole : listed.2.flatten ∈ Lines.new patch.before.contents ∨
        listed.2.flatten ∈ Lines.new patch.after.contents := by
      unfold hunks at held
      split_ifs at held
      · cases held
      · exact algorithm.line_mem held mem
    have newlines : Terminated isNewline listed.2.flatten ∨ Unterminated isNewline listed.2.flatten :=
      whole.elim (LineList.of_mem (Lines.lineList_new _)) (LineList.of_mem (Lines.lineList_new _))
    refine ⟨newline_not_mem_lineParts newlines line part, fun leads => ?_⟩
    obtain ⟨text, marked, written⟩ := lineParts_cases listed
    have parts : line = text ∨ line = noNewlineRemark := by
      rcases written with written | written <;> rw [written] at part
      · exact Or.inl (List.mem_singleton.mp part)
      · exact List.mem_pair.mp part
    rcases parts with rfl | rfl
    · rw [start leads] at marked
      cases kind : listed.1 with
      | _ =>
        rw [kind] at marked
        exact absurd marked (by decide)
    · exact absurd (start leads) (by decide)

/-- A rendered patch is one block. -/
theorem ledBy : LedBy 10 diffHeader (patch.headers ++ patch.bodyLines algorithm) := by
  refine ⟨patch.firstLine, patch.laterLines ++ patch.bodyLines algorithm, ?_, patch.clean_firstLine,
    ?_, fun line mem => ?_⟩
  · rw [headers_eq, List.cons_append]
  · simp only [firstLine, List.append_assoc]
    exact List.prefix_append ..
  · rcases List.mem_append.mp mem with later | body
    · exact ⟨(patch.laterLines_plain line later).1, (patch.laterLines_plain line later).2.1⟩
    · exact patch.bodyLines_plain algorithm line body

/-- The reader parts the header of a block from its hunks. -/
theorem header_render : header (patch.render algorithm) = closeAll 10 patch.headers := by
  rw [render_eq, closeAll_append, headers_eq, header]
  refine headTo_closeAll (by decide) (by decide) patch.clean_firstLine
    (fun line mem => ⟨(patch.laterLines_plain line mem).1, (patch.laterLines_plain line mem).2.2⟩) ?_
  unfold bodyLines
  cases patch.hunks algorithm with
  | nil => exact Or.inl rfl
  | cons hunk hunks =>
    refine Or.inr ?_
    have marker : bytesOf "@@ -" = bytesOf "@@ " ++ [45] := by decide
    rw [List.flatMap_cons, hunkLines, List.cons_append, ← List.append_nil (closeAll ..),
      closeAll_cons, hunkHeader, marker]
    simp only [List.append_assoc]
    exact List.prefix_append ..

end GitPatch

end ProgressiveReviewer.JjDiff
