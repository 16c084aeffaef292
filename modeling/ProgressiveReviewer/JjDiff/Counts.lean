import ProgressiveReviewer.JjDiff.Blocks

/-! Reading a rendered patch counts what its hunks list. -/

namespace ProgressiveReviewer.JjDiff

open Library Hunks Marks

/-- Counts with the lines of a list in them. -/
def tally (statistics : DiffStatistics) (lines : List (DiffLineType × List Bytes)) :
    DiffStatistics :=
  ⟨statistics.linesAdded + lines.countP (·.1 = .added),
    statistics.linesRemoved + lines.countP (·.1 = .removed)⟩

theorem read_marked (counted : DiffStatistics) {line : Bytes} {kind : DiffLineType}
    (marked : line.head? = some kind.marker) (tokens : List Bytes) :
    DiffStatistics.read (true, counted) line = (true, tally counted [(kind, tokens)]) := by
  obtain ⟨rest, rfl⟩ : ∃ rest, line = kind.marker :: rest := by
    cases line with
    | nil => cases marked
    | cons byte rest => exact ⟨rest, by rw [Option.some.inj marked]⟩
  have block : bytesOf "diff --git " = 100 :: (bytesOf "diff --git ").tail := by decide
  have hunk : bytesOf "@@ " = 64 :: (bytesOf "@@ ").tail := by decide
  rw [DiffStatistics.read, block, hunk]
  cases kind <;> rfl

theorem read_remark (counted : DiffStatistics) :
    DiffStatistics.read (true, counted) noNewlineRemark = (true, counted) := by
  have block : (bytesOf "diff --git ").isPrefixOf noNewlineRemark = false := by decide
  have hunk : (bytesOf "@@ ").isPrefixOf noNewlineRemark = false := by decide
  have first : noNewlineRemark.head? = some 92 := by decide
  simp only [DiffStatistics.read, block, hunk, first]
  rfl

/-- A line of a hunk counts once, with or without a remark after it. -/
theorem read_lineParts (counted : DiffStatistics) (line : DiffLineType × List Bytes) :
    (lineParts line).foldl DiffStatistics.read (true, counted) = (true, tally counted [line]) := by
  obtain ⟨text, marked, written | written⟩ := lineParts_cases line
  · rw [written, List.foldl_cons, read_marked counted marked line.2]
    rfl
  · rw [written, List.foldl_cons, read_marked counted marked line.2, List.foldl_cons, read_remark]
    rfl

theorem tally_append (counted : DiffStatistics) (lines more : List (DiffLineType × List Bytes)) :
    tally (tally counted lines) more = tally counted (lines ++ more) := by
  simp [tally, Nat.add_assoc]

theorem read_lines (counted : DiffStatistics) (lines : List (DiffLineType × List Bytes)) :
    (lines.flatMap lineParts).foldl DiffStatistics.read (true, counted) =
      (true, tally counted lines) := by
  induction lines generalizing counted with
  | nil => rfl
  | cons line lines ih =>
    rw [List.flatMap_cons, List.foldl_append, read_lineParts, ih, tally_append]
    rfl

theorem read_hunkHeader (state : Bool × DiffStatistics) (hunk : UnifiedDiffHunk) :
    DiffStatistics.read state (hunkHeader hunk) = (true, state.2) := by
  have marker : bytesOf "@@ -" = bytesOf "@@ " ++ [45] := by decide
  have block : (bytesOf "diff --git ").isPrefixOf (hunkHeader hunk) = false := by
    have first : bytesOf "diff --git " = 100 :: (bytesOf "diff --git ").tail := by decide
    have lead : bytesOf "@@ " = 64 :: (bytesOf "@@ ").tail := by decide
    rw [hunkHeader, marker, lead, first]
    rfl
  have leads : (bytesOf "@@ ").isPrefixOf (hunkHeader hunk) = true := by
    rw [List.isPrefixOf_iff_prefix, hunkHeader, marker]
    simp only [List.append_assoc]
    exact List.prefix_append ..
  rw [DiffStatistics.read, block, leads]
  rfl

namespace GitPatch

variable (algorithm : HunkAlgorithm) (patch : GitPatch)

theorem read_bodyLines (state : Bool × DiffStatistics) (hunks : List UnifiedDiffHunk) :
    ((hunks.flatMap hunkLines).foldl DiffStatistics.read state).2 =
      tally state.2 (hunks.flatMap (·.lines)) := by
  induction hunks generalizing state with
  | nil => rfl
  | cons hunk hunks ih =>
    rw [List.flatMap_cons, List.foldl_append, hunkLines, List.foldl_cons, read_hunkHeader,
      read_lines, ih, tally_append, List.flatMap_cons]

theorem read_headers (counted : DiffStatistics) :
    patch.headers.foldl DiffStatistics.read (false, counted) = (false, counted) := by
  have later : patch.laterLines.foldl DiffStatistics.read (false, counted) = (false, counted) := by
    refine List.foldlRecOn (motive := (· = (false, counted))) _ _ rfl ?_
    rintro state rfl line mem
    obtain ⟨-, block, hunk⟩ := patch.laterLines_plain line mem
    have block : (bytesOf "diff --git ").isPrefixOf line = false :=
      Bool.eq_false_iff.mpr (mt List.isPrefixOf_iff_prefix.mp block)
    have hunk : (bytesOf "@@ ").isPrefixOf line = false :=
      Bool.eq_false_iff.mpr (mt List.isPrefixOf_iff_prefix.mp hunk)
    rw [DiffStatistics.read, block, hunk]
    rfl
  have leads : (bytesOf "diff --git ").isPrefixOf patch.firstLine = true := by
    rw [List.isPrefixOf_iff_prefix, firstLine]
    simp only [List.append_assoc]
    exact List.prefix_append ..
  have first : DiffStatistics.read (false, counted) patch.firstLine = (false, counted) := by
    rw [DiffStatistics.read, leads]
    rfl
  rw [headers_eq, List.foldl_cons, first, later]

/-- Reading a rendered patch counts what its hunks list. -/
theorem fromUnifiedDiff_render :
    DiffStatistics.fromUnifiedDiff (patch.render algorithm) = patch.statistics algorithm := by
  have clean : ∀ line ∈ patch.headers ++ patch.bodyLines algorithm, 10 ∉ line := by
    intro line mem
    rcases List.mem_append.mp mem with header | body
    · exact patch.clean_headers line header
    · exact (patch.bodyLines_plain algorithm line body).1
  have lines : (patch.render algorithm).splitOnP isNewline =
      patch.headers ++ patch.bodyLines algorithm ++ [[]] := by
    rw [render_eq]
    exact splitOn_closeAll clean
  have last (state : Bool × DiffStatistics) : (DiffStatistics.read state []).2 = state.2 := by
    have block : (bytesOf "diff --git ").isPrefixOf ([] : Bytes) = false := by decide
    have hunk : (bytesOf "@@ ").isPrefixOf ([] : Bytes) = false := by decide
    simp only [DiffStatistics.read, block, hunk]
    simp
  rw [DiffStatistics.fromUnifiedDiff, lines, List.foldl_append, List.foldl_append, read_headers,
    List.foldl_cons, List.foldl_nil, last, bodyLines, read_bodyLines]
  simp [tally, statistics, counted, DiffStatistics.zero]

end GitPatch

end ProgressiveReviewer.JjDiff
