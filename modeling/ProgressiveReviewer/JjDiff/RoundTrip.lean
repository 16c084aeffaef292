import ProgressiveReviewer.JjDiff.Counts

/-! The reader of diffs gives back what the writer of patches counted, file by file. -/

namespace ProgressiveReviewer.JjDiff

open Library Hunks Marks

/-! Paths that header lines name. -/

def absentPath : Bytes := bytesOf "/dev/null"

theorem pathFromMarkerLine_none {line : Bytes} {markers : List (Bytes × Option Bytes)}
    (other : ∀ entry ∈ markers, ¬entry.1 <+: line) : pathFromMarkerLine line markers = .ok none := by
  induction markers with
  | nil => rfl
  | cons entry markers ih =>
    obtain ⟨first, later⟩ := List.forall_mem_cons.mp other
    rw [pathFromMarkerLine, if_neg (mt List.isPrefixOf_iff_prefix.mp first), ih later]

theorem pathFromMarkerLine_skip {line : Bytes} {front : List (Bytes × Option Bytes)}
    (other : ∀ entry ∈ front, ¬entry.1 <+: line) (back : List (Bytes × Option Bytes)) :
    pathFromMarkerLine line (front ++ back) = pathFromMarkerLine line back := by
  induction front with
  | nil => rfl
  | cons entry front ih =>
    obtain ⟨first, later⟩ := List.forall_mem_cons.mp other
    rw [List.cons_append, pathFromMarkerLine, if_neg (mt List.isPrefixOf_iff_prefix.mp first),
      ih later]

theorem pathFromMarkerLine_lead (marker encoded : Bytes) (lead : Option Bytes)
    (back : List (Bytes × Option Bytes)) :
    pathFromMarkerLine (marker ++ encoded) ((marker, lead) :: back) =
      if encoded = absentPath then .ok none
      else do
        let decoded ← decodePath encoded
        match lead with
        | some lead =>
          ensure (lead.isPrefixOf decoded) "jj returned an invalid Git path marker"
          return some (decoded.drop lead.length)
        | none => return some decoded := by
  rw [pathFromMarkerLine, if_pos (List.isPrefixOf_iff_prefix.mpr (List.prefix_append ..)),
    List.drop_left]
  dsimp only
  unfold absentPath
  split_ifs <;> rfl

/-- A marker in the table is read where it stands. -/
theorem pathFromMarkerLine_at {front back : List (Bytes × Option Bytes)} {marker : Bytes}
    {lead : Option Bytes} (table : pathMarkers = front ++ (marker, lead) :: back)
    (apart : ∀ entry ∈ front, ¬entry.1 <+: marker ∧ ¬marker <+: entry.1) (encoded : Bytes) :
    pathFromMarkerLine (marker ++ encoded) pathMarkers =
      pathFromMarkerLine (marker ++ encoded) ((marker, lead) :: back) := by
  rw [table]
  exact pathFromMarkerLine_skip
    (fun entry mem => not_leads (List.prefix_append ..) (apart entry mem)) _

theorem bytes_ne_absentPath {lead : Bytes} {path : RepoPath}
    (other : lead.head? ≠ some 47) (own : lead ≠ [] ∨ path ≠ absentPath) :
    (GitPath.new lead path).bytes ≠ absentPath := by
  have first : absentPath.head? = some 47 := by decide
  intro same
  unfold GitPath.bytes at same
  split_ifs at same
  · have head : some (34 : UInt8) = some 47 := (congrArg List.head? same).trans first
    exact absurd head (by decide)
  · change lead ++ path = absentPath at same
    cases lead with
    | nil => exact own.elim (· rfl) (· same)
    | cons byte lead =>
      exact other ((congrArg List.head? same).trans first)

/-- A side of a change is read as its path. -/
theorem pathFromMarkerLine_side (front : List (Bytes × Option Bytes))
    {back : List (Bytes × Option Bytes)} {marker lead : Bytes}
    (table : pathMarkers = front ++ (marker, some lead) :: back)
    (apart : ∀ entry ∈ front, ¬entry.1 <+: marker ∧ ¬marker <+: entry.1)
    (plain : ∀ byte ∈ lead, GitPath.plain byte = true) (first : lead.head? ≠ some 47)
    (some_lead : lead ≠ []) (path : RepoPath) :
    pathFromMarkerLine (marker ++ (GitPath.new lead path).bytes) pathMarkers = .ok (some path) := by
  rw [pathFromMarkerLine_at table apart, pathFromMarkerLine_lead,
    if_neg (bytes_ne_absentPath first (Or.inl some_lead)), decodePath_bytes plain]
  have leads : lead.isPrefixOf (lead ++ path) = true :=
    List.isPrefixOf_iff_prefix.mpr (List.prefix_append ..)
  show (do
    ensure (lead.isPrefixOf (lead ++ path)) "jj returned an invalid Git path marker"
    return some ((lead ++ path).drop lead.length) : Except String (Option Bytes)) = _
  rw [leads, List.drop_left]
  rfl

/-- A side that a file is not on names no path. -/
theorem pathFromMarkerLine_absent (front : List (Bytes × Option Bytes))
    {back : List (Bytes × Option Bytes)} {marker : Bytes}
    {lead : Option Bytes} (table : pathMarkers = front ++ (marker, lead) :: back)
    (apart : ∀ entry ∈ front, ¬entry.1 <+: marker ∧ ¬marker <+: entry.1) :
    pathFromMarkerLine (marker ++ absentPath) pathMarkers = .ok none := by
  rw [pathFromMarkerLine_at table apart, pathFromMarkerLine_lead, if_pos rfl]

/-- The path of a rename is read as it is, but for a path that says there is none. -/
theorem pathFromMarkerLine_rename (front : List (Bytes × Option Bytes))
    {back : List (Bytes × Option Bytes)} {marker : Bytes}
    (table : pathMarkers = front ++ (marker, none) :: back)
    (apart : ∀ entry ∈ front, ¬entry.1 <+: marker ∧ ¬marker <+: entry.1) (path : RepoPath) :
    pathFromMarkerLine (marker ++ (GitPath.new [] path).bytes) pathMarkers =
      .ok (if path = absentPath then none else some path) := by
  rw [pathFromMarkerLine_at table apart, pathFromMarkerLine_lead]
  split_ifs with written own own
  · rfl
  · exact absurd written (bytes_ne_absentPath (by decide) (Or.inr own))
  · subst own
    exact absurd (by decide) written
  · rw [decodePath_bytes fun _ mem => absurd mem List.not_mem_nil]
    rfl

/-- A line without a marker names no path. -/
theorem pathFromMarkerLine_plain (lead : Bytes) {line : Bytes} (held : lead ∈ diffHeader :: plainLeads)
    (leads : lead <+: line) : pathFromMarkerLine line pathMarkers = .ok none := by
  have apart : ∀ lead ∈ diffHeader :: plainLeads, ∀ entry ∈ pathMarkers,
      ¬entry.1 <+: lead ∧ ¬lead <+: entry.1 := by decide
  exact pathFromMarkerLine_none fun entry mem => not_leads leads (apart lead held entry mem)

namespace GitPatch

variable (patch : GitPatch)

theorem mem_paths {path : RepoPath} :
    path ∈ patch.paths ↔ patch.oldPath = some path ∨ patch.newPath = some path := by
  simp [paths]

theorem reviewPath_mem : patch.reviewPath ∈ patch.paths := by
  have side : patch.newPath.or patch.oldPath = some patch.reviewPath := (Option.some_get _).symm
  rw [mem_paths]
  rcases Option.or_eq_some_iff.mp side with new | ⟨-, old⟩
  · exact Or.inr new
  · exact Or.inl old

theorem oldPathOr_mem : patch.oldPathOr ∈ patch.paths := by
  unfold oldPathOr
  cases side : patch.oldPath with
  | some path => exact patch.mem_paths.mpr (Or.inl side)
  | none => exact patch.reviewPath_mem

theorem newPathOr_mem : patch.newPathOr ∈ patch.paths := by
  unfold newPathOr
  cases side : patch.newPath with
  | some path => exact patch.mem_paths.mpr (Or.inr side)
  | none => exact patch.reviewPath_mem

/-- A path of the file is the path of one of the sides, as the header names them. -/
theorem eq_pathOr {path : RepoPath} (mem : path ∈ patch.paths) :
    path = patch.oldPathOr ∨ path = patch.newPathOr := by
  unfold oldPathOr newPathOr
  rcases patch.mem_paths.mp mem with old | new
  · exact Or.inl (by rw [old, Option.getD_some])
  · exact Or.inr (by rw [new, Option.getD_some])

/-- The line of the old side names the old path, if there is one. -/
theorem read_oldLine : pathFromMarkerLine (bytesOf "--- " ++
      if patch.before.mode.isNone then bytesOf "/dev/null" else patch.old.bytes) pathMarkers =
    .ok patch.oldPath := by
  have side := patch.old_side
  cases own : patch.oldPath with
  | none =>
    rw [own, Option.isSome_none, Option.isSome_eq_false_iff] at side
    rw [if_pos side]
    exact pathFromMarkerLine_absent [] rfl fun _ mem => absurd mem List.not_mem_nil
  | some path =>
    rw [own, Option.isSome_some, ← Option.not_isNone, Bool.not_eq_true'] at side
    rw [if_neg (Bool.eq_false_iff.mp side), old, oldPathOr, own, Option.getD_some]
    exact pathFromMarkerLine_side [] rfl (fun _ mem => absurd mem List.not_mem_nil)
      (by decide +kernel) (by decide) (by decide) _

/-- The line of the new side names the new path, if there is one. -/
theorem read_newLine : pathFromMarkerLine (bytesOf "+++ " ++
      if patch.after.mode.isNone then bytesOf "/dev/null" else patch.new.bytes) pathMarkers =
    .ok patch.newPath := by
  have side := patch.new_side
  cases own : patch.newPath with
  | none =>
    rw [own, Option.isSome_none, Option.isSome_eq_false_iff] at side
    rw [if_pos side]
    exact pathFromMarkerLine_absent (pathMarkers.take 1) rfl (by decide)
  | some path =>
    rw [own, Option.isSome_some, ← Option.not_isNone, Bool.not_eq_true'] at side
    rw [if_neg (Bool.eq_false_iff.mp side), new, newPathOr, own, Option.getD_some]
    exact pathFromMarkerLine_side (pathMarkers.take 1) rfl (by decide)
      (by decide +kernel) (by decide) (by decide) _

theorem read_renames (line : Bytes) (mem : line ∈ patch.renameLines) :
    ∃ path ∈ [patch.oldPathOr, patch.newPathOr],
      pathFromMarkerLine line pathMarkers = .ok (if path = absentPath then none else some path) := by
  unfold renameLines at mem
  split_ifs at mem
  · rcases List.mem_pair.mp mem with rfl | rfl
    · exact ⟨_, List.mem_cons_self .., pathFromMarkerLine_rename (pathMarkers.take 2) rfl
        (by decide) _⟩
    · exact ⟨_, List.mem_cons_of_mem _ (List.mem_cons_self ..),
        pathFromMarkerLine_rename (pathMarkers.take 3) rfl (by decide) _⟩
  · cases mem

/-- What the header lines of a file name: nothing but its paths. -/
theorem read_headers_line {line : Bytes} (mem : line ∈ patch.headers) :
    ∃ name, pathFromMarkerLine line pathMarkers = .ok name ∧ ∀ path ∈ name, path ∈ patch.paths := by
  have silent (lead : Bytes) {line : Bytes} (held : lead ∈ diffHeader :: plainLeads) (leads : lead <+: line) :
      ∃ name, pathFromMarkerLine line pathMarkers = .ok name ∧
        ∀ path ∈ name, path ∈ patch.paths :=
    ⟨none, pathFromMarkerLine_plain lead held leads, fun _ none => nomatch none⟩
  rw [headers_eq, laterLines] at mem
  simp only [List.mem_cons, List.mem_append, List.not_mem_nil, or_false] at mem
  rcases mem with rfl | ((mode | rename) | rfl) | side
  · refine silent diffHeader (List.mem_cons_self ..) ?_
    simp only [firstLine, List.append_assoc]
    exact List.prefix_append ..
  · obtain ⟨-, lead, held, leads⟩ := patch.modeLines_led line mode
    exact silent lead (List.mem_cons_of_mem _ held) leads
  · obtain ⟨path, own, read⟩ := patch.read_renames line rename
    refine ⟨_, read, fun other named => ?_⟩
    split_ifs at named
    · cases named
    · obtain rfl := Option.some.inj named
      rcases List.mem_pair.mp own with rfl | rfl
      · exact patch.oldPathOr_mem
      · exact patch.newPathOr_mem
  · refine silent (bytesOf "index ") (by decide) ?_
    simp only [List.append_assoc]
    exact List.prefix_append ..
  · unfold sideLines at side
    by_cases binary : patch.isBinary = true
    · rw [if_pos binary] at side
      obtain rfl := List.mem_singleton.mp side
      refine silent (bytesOf "Binary files ") (by decide) ?_
      simp only [List.append_assoc]
      exact List.prefix_append ..
    · rw [if_neg binary] at side
      rcases List.mem_pair.mp side with rfl | rfl
      · exact ⟨_, patch.read_oldLine, fun path held => patch.mem_paths.mpr (Or.inl held)⟩
      · exact ⟨_, patch.read_newLine, fun path held => patch.mem_paths.mpr (Or.inr held)⟩

theorem sideLines_text (text : patch.isBinary = false) : patch.sideLines =
    [bytesOf "--- " ++ (if patch.before.mode.isNone then bytesOf "/dev/null" else patch.old.bytes),
      bytesOf "+++ " ++ (if patch.after.mode.isNone then bytesOf "/dev/null" else patch.new.bytes)] :=
  if_neg (Bool.eq_false_iff.mp text)

theorem renameLines_name (renamed : patch.change = .renamed) {path : RepoPath}
    (own : path = patch.oldPathOr ∨ path = patch.newPathOr) (real : path ≠ absentPath) :
    ∃ line ∈ patch.renameLines, pathFromMarkerLine line pathMarkers = .ok (some path) := by
  rw [renameLines, if_pos renamed]
  rcases own with rfl | rfl
  · refine ⟨_, List.mem_cons_self .., ?_⟩
    exact (pathFromMarkerLine_rename (pathMarkers.take 2) rfl (by decide) _).trans
      (congrArg _ (if_neg real))
  · refine ⟨_, List.mem_cons_of_mem _ (List.mem_cons_self ..), ?_⟩
    exact (pathFromMarkerLine_rename (pathMarkers.take 3) rfl (by decide) _).trans
      (congrArg _ (if_neg real))

/-- The header of a text file names each of its paths, and so does the header of a rename. -/
theorem headers_name (covered : patch.isBinary = false ∨
      patch.change = .renamed ∧ absentPath ∉ patch.paths) {path : RepoPath}
    (mem : path ∈ patch.paths) :
    ∃ line ∈ patch.headers, pathFromMarkerLine line pathMarkers = .ok (some path) := by
  rcases covered with text | ⟨renamed, real⟩
  · have side {line : Bytes} (held : line ∈ patch.sideLines) : line ∈ patch.headers := by
      rw [headers_eq]
      exact List.mem_cons_of_mem _ (List.mem_append_right _ held)
    rw [patch.sideLines_text text] at side
    rcases patch.mem_paths.mp mem with old | new
    · exact ⟨_, side (List.mem_cons_self ..), old ▸ patch.read_oldLine⟩
    · exact ⟨_, side (List.mem_cons_of_mem _ (List.mem_cons_self ..)), new ▸ patch.read_newLine⟩
  · obtain ⟨line, held, read⟩ := patch.renameLines_name renamed (patch.eq_pathOr mem)
      (fun same => real (same ▸ mem))
    refine ⟨line, ?_, read⟩
    rw [headers_eq]
    refine List.mem_cons_of_mem _ ?_
    simp only [laterLines, List.mem_append]
    exact Or.inl (Or.inl (Or.inr held))

/-- The header of another binary file names no path but in its first line. -/
theorem headers_silent (binary : patch.isBinary = true) (kept : patch.change ≠ .renamed)
    {line : Bytes} (mem : line ∈ patch.headers) :
    pathFromMarkerLine line pathMarkers = .ok none := by
  rw [headers_eq, laterLines, renameLines, if_neg kept, sideLines, if_pos binary] at mem
  simp only [List.mem_cons, List.mem_append, List.not_mem_nil, or_false] at mem
  rcases mem with rfl | (mode | rfl) | rfl
  · refine pathFromMarkerLine_plain diffHeader (List.mem_cons_self ..) ?_
    simp only [firstLine, List.append_assoc]
    exact List.prefix_append ..
  · obtain ⟨-, lead, held, leads⟩ := patch.modeLines_led line mode
    exact pathFromMarkerLine_plain lead (List.mem_cons_of_mem _ held) leads
  · refine pathFromMarkerLine_plain (bytesOf "index ") (by decide) ?_
    simp only [List.append_assoc]
    exact List.prefix_append ..
  · refine pathFromMarkerLine_plain (bytesOf "Binary files ") (by decide) ?_
    simp only [List.append_assoc]
    exact List.prefix_append ..

end GitPatch

/-! Blocks. -/

/-- Counts with those of some paths set. -/
def record (paths : List RepoPath) (statistics : DiffStatistics) (taken : PathStatistics) :
    PathStatistics :=
  fun path => if path ∈ paths then some statistics else taken path

theorem record_nil (statistics : DiffStatistics) (taken : PathStatistics) :
    record [] statistics taken = taken :=
  funext fun _ => if_neg List.not_mem_nil

theorem record_cons (path : RepoPath) (paths : List RepoPath) (statistics : DiffStatistics)
    (taken : PathStatistics) : record (path :: paths) statistics taken =
      record paths statistics (Function.update taken path (some statistics)) := by
  funext other
  unfold record
  by_cases own : other = path
  · simp [own]
  · simp [own]

theorem record_congr {paths other : List RepoPath} (same : ∀ path, path ∈ paths ↔ path ∈ other)
    (statistics : DiffStatistics) (taken : PathStatistics) :
    record paths statistics taken = record other statistics taken :=
  funext fun path => if_congr (same path) rfl rfl

/-- The path that a line names, when it reads. -/
def lineName (line : Bytes) : Option RepoPath :=
  match pathFromMarkerLine line pathMarkers with
  | .ok name => name
  | .error _ => none

theorem foldlM_takeLine (planned : List RepoPath) (lines : List Bytes)
    (reads : ∀ line ∈ lines, ∃ name, pathFromMarkerLine line pathMarkers = .ok name ∧
      ∀ path ∈ name, path ∈ planned) (statistics : DiffStatistics) (taken : PathStatistics × Bool) :
    lines.foldlM (takeLine planned statistics) taken =
      .ok (record (lines.filterMap lineName) statistics taken.1,
        taken.2 || !(lines.filterMap lineName).isEmpty) := by
  induction lines generalizing taken with
  | nil =>
    rw [List.filterMap_nil, record_nil, List.isEmpty_nil, Bool.not_true, Bool.or_false]
    rfl
  | cons line lines ih =>
    obtain ⟨⟨name, read, own⟩, later⟩ := List.forall_mem_cons.mp reads
    have named : lineName line = name := by rw [lineName, read]
    have ih := ih later
    cases name with
    | none =>
      have step : takeLine planned statistics taken line = .ok taken := by
        rw [takeLine, read]
        rfl
      rw [List.foldlM_cons, step, List.filterMap_cons_none named]
      exact ih taken
    | some path =>
      have step : takeLine planned statistics taken line =
          .ok (Function.update taken.1 path (some statistics), true) := by
        rw [takeLine, read]
        exact if_pos (own path rfl)
      rw [List.foldlM_cons, step, List.filterMap_cons_some named, record_cons,
        List.isEmpty_cons, Bool.not_false, Bool.or_true]
      exact ih _

/-- No header reads as the description of a change. -/
theorem GitPatch.not_description (patch : GitPatch) :
    ¬descriptionDiffPaths <:+: closeAll 10 patch.headers := by
  have parts : descriptionDiffPaths =
      bytesOf "--- JJ-COMMIT-DESCRIPTION" ++ 10 :: (bytesOf "+++ JJ-COMMIT-DESCRIPTION" ++ [10]) := by
    decide
  have clean : (10 : UInt8) ∉ bytesOf "+++ JJ-COMMIT-DESCRIPTION" := by decide
  have unread : ∀ name, pathFromMarkerLine (bytesOf "+++ JJ-COMMIT-DESCRIPTION") pathMarkers ≠
      .ok name := by
    have error : pathFromMarkerLine (bytesOf "+++ JJ-COMMIT-DESCRIPTION") pathMarkers =
        .error "jj returned an invalid Git path marker" := by decide
    exact fun name read => nomatch error.symm.trans read
  intro inside
  rw [parts] at inside
  rcases mem_of_infix_closeAll patch.clean_headers clean inside with mem | none
  · obtain ⟨name, read, -⟩ := patch.read_headers_line mem
    exact unread name read
  · exact absurd none (by decide)

theorem twice_injective {α : Type*} {first second : List α} (between after : List α)
    (same : first ++ between ++ first ++ after = second ++ between ++ second ++ after) :
    first = second := by
  have length := congrArg List.length same
  simp only [List.length_append] at length
  rw [List.append_assoc, List.append_assoc, List.append_assoc second, List.append_assoc second] at same
  exact List.append_inj_left same (by omega)

/-- The first line of a file that keeps its path tells the path. -/
theorem samePathHeader_injective {first second : RepoPath} {quoted other : Bool}
    (same : samePathHeader first quoted = samePathHeader second other) : first = second := by
  have lead : bytesOf "a/" = [97, 47] := by decide
  simp only [samePathHeader, GitPath.withQuoting, GitPath.bytes, GitPath.new, List.append_assoc,
    lead] at same
  have same := List.append_cancel_left same
  cases quoted <;> cases other
  · have same := @List.append_cancel_left _ [97, 47] _ _ same
    refine twice_injective (32 :: bytesOf "b/") [] ?_
    simpa using same
  · exact absurd (congrArg List.head? same) (by simp)
  · exact absurd (congrArg List.head? same) (by simp)
  · have same := @List.append_cancel_left _ [34, 97, 47] _ _ same
    refine flatMap_escape_injective
      (twice_injective (34 :: 32 :: 34 :: bytesOf "b/") [34] ?_)
    simpa using same

namespace GitPatch

variable (algorithm : HunkAlgorithm) (patch : GitPatch)

theorem firstLine_same {path : RepoPath} (old : patch.oldPathOr = path)
    (new : patch.newPathOr = path) :
    patch.firstLine = samePathHeader path (!path.all GitPath.plain) := by
  rw [firstLine, GitPatch.old, GitPatch.new, old, new]
  rfl

theorem firstLine_render :
    (patch.render algorithm).takeWhile (fun byte => !isNewline byte) = patch.firstLine := by
  have clean : ∀ byte ∈ patch.firstLine, (!isNewline byte) = true := by
    intro byte mem
    rw [Bool.not_eq_true', Bool.eq_false_iff]
    exact fun newline => patch.clean_firstLine (isNewline_eq.mp newline ▸ mem)
  rw [render_eq, headers_eq, List.cons_append, ← List.append_nil (closeAll ..), closeAll_cons,
    List.takeWhile_append_of_pos clean, List.takeWhile_cons_of_neg (by decide), List.append_nil]

/-- The reader expects the first line of a file that keeps its path, for no other path. -/
theorem modeOnlyPath_render {planned : List RepoPath} {path : RepoPath} (mem : path ∈ planned)
    (old : patch.oldPathOr = path) (new : patch.newPathOr = path) :
    modeOnlyPath planned (patch.render algorithm) = some path := by
  have expected (own : RepoPath) (quoted : Bool)
      (same : samePathHeader own quoted = patch.firstLine) : own = path :=
    samePathHeader_injective (same.trans (patch.firstLine_same old new))
  rw [modeOnlyPath, firstLine_render]
  cases found : planned.find? fun path =>
      samePathHeader path false = patch.firstLine ∨ samePathHeader path true = patch.firstLine with
  | none =>
    have missing := List.find?_eq_none.mp found path mem
    rw [decide_eq_true_iff, patch.firstLine_same old new] at missing
    cases quiet : path.all GitPath.plain with
    | _ =>
      rw [quiet] at missing
      simp at missing
  | some own =>
    have held := List.find?_some found
    rcases of_decide_eq_true held with same | same
    · rw [expected own _ same]
    · rw [expected own _ same]

/-- Reading the block of a file sets its counts for its paths. -/
theorem parseBlock_render {planned : List RepoPath} (paths : ∀ path ∈ patch.paths, path ∈ planned)
    (single : patch.isBinary = true → patch.change ≠ .renamed → patch.oldPathOr = patch.newPathOr)
    (real : patch.isBinary = true → patch.change = .renamed → absentPath ∉ patch.paths)
    (taken : PathStatistics) : parseBlock planned taken (patch.render algorithm) =
      .ok (record patch.paths (patch.statistics algorithm) taken) := by
  have lines : (closeAll 10 patch.headers).splitOnP isNewline = patch.headers ++ [[]] :=
    splitOn_closeAll patch.clean_headers
  have empty : pathFromMarkerLine [] pathMarkers = .ok none := by decide
  have reads : ∀ line ∈ patch.headers ++ [[]], ∃ name,
      pathFromMarkerLine line pathMarkers = .ok name ∧ ∀ path ∈ name, path ∈ patch.paths := by
    intro line mem
    rcases List.mem_append.mp mem with header | last
    · exact patch.read_headers_line header
    · obtain rfl := List.mem_singleton.mp last
      exact ⟨none, empty, fun _ none => by cases none⟩
  have fold := foldlM_takeLine planned (patch.headers ++ [[]])
    (fun line mem => (reads line mem).imp fun name found =>
      ⟨found.1, fun path held => paths path (found.2 path held)⟩) (patch.statistics algorithm)
    (taken, false)
  have names {line : Bytes} {name : Option RepoPath}
      (read : pathFromMarkerLine line pathMarkers = .ok name) : lineName line = name := by
    rw [lineName, read]
  rw [parseBlock, header_render, if_neg patch.not_description, lines, fromUnifiedDiff_render, fold,
    Bool.false_or]
  by_cases bare : patch.isBinary = true ∧ patch.change ≠ .renamed
  · have silent : (patch.headers ++ [[]]).filterMap lineName = [] := by
      rw [List.filterMap_eq_nil_iff]
      intro line mem
      rcases List.mem_append.mp mem with header | last
      · exact names (patch.headers_silent bare.1 bare.2 header)
      · obtain rfl := List.mem_singleton.mp last
        exact names empty
    have one := single bare.1 bare.2
    have only : ∀ path, path ∈ patch.paths ↔ path ∈ [patch.oldPathOr] := fun path => by
      rw [List.mem_singleton]
      refine ⟨fun mem => (patch.eq_pathOr mem).elim id (·.trans one.symm), ?_⟩
      rintro rfl
      exact patch.oldPathOr_mem
    have zero : patch.statistics algorithm = .zero := by
      simp [statistics, counted, hunks, bare.1, DiffStatistics.zero]
    rw [silent, record_nil, record_congr only, record_cons, record_nil, zero,
      patch.modeOnlyPath_render algorithm (paths _ patch.oldPathOr_mem) rfl one.symm]
    rfl
  · have covered : patch.isBinary = false ∨ patch.change = .renamed ∧ absentPath ∉ patch.paths := by
      by_cases binary : patch.isBinary = true
      · have renamed := not_not.mp fun kept => bare ⟨binary, kept⟩
        exact Or.inr ⟨renamed, real binary renamed⟩
      · exact Or.inl (Bool.eq_false_iff.mpr binary)
    have all : ∀ path, path ∈ (patch.headers ++ [[]]).filterMap lineName ↔ path ∈ patch.paths := by
      intro path
      rw [List.mem_filterMap]
      constructor
      · rintro ⟨line, mem, own⟩
        obtain ⟨name, read, held⟩ := reads line mem
        rw [names read] at own
        exact held path own
      · intro mem
        obtain ⟨line, held, read⟩ := patch.headers_name covered mem
        exact ⟨line, List.mem_append_left _ held, names read⟩
    have matched : ((patch.headers ++ [[]]).filterMap lineName).isEmpty = false :=
      List.isEmpty_eq_false_iff.mpr (List.ne_nil_of_mem ((all _).mpr patch.reviewPath_mem))
    rw [matched, record_congr all]
    rfl

end GitPatch

/-! Whole diffs. -/

variable (algorithm : HunkAlgorithm)

/-- The counts for a path: those of the last of the files with that path. -/
def expected (files : List GitPatch) : PathStatistics := fun path =>
  (files.reverse.find? fun file => path ∈ file.paths).map (·.statistics algorithm)

theorem expected_concat (files : List GitPatch) (file : GitPatch) :
    expected algorithm (files ++ [file]) =
      record file.paths (file.statistics algorithm) (expected algorithm files) := by
  funext path
  unfold expected record
  rw [List.reverse_append, List.reverse_singleton, List.singleton_append, List.find?_cons]
  by_cases own : path ∈ file.paths
  · simp [own]
  · simp [own]

theorem foldlM_concat {α β ε : Type*} {step : β → α → Except ε β} {items : List α} {item : α}
    {start reached final : β} (earlier : items.foldlM step start = .ok reached)
    (last : step reached item = .ok final) : (items ++ [item]).foldlM step start = .ok final := by
  have one : [item].foldlM step reached = .ok final := by
    rw [List.foldlM_cons, last]
    rfl
  rw [List.foldlM_append, earlier]
  exact one

theorem foldlM_parseBlock {planned : List RepoPath} {files : List GitPatch}
    (blocks : ∀ file ∈ files, ∀ taken, parseBlock planned taken (file.render algorithm) =
      .ok (record file.paths (file.statistics algorithm) taken)) :
    (files.map (·.render algorithm)).foldlM (parseBlock planned) (fun _ => none) =
      .ok (expected algorithm files) := by
  induction files using List.reverseRecOn with
  | nil => rfl
  | append_singleton files file ih =>
    have earlier := ih fun other mem => blocks other (List.mem_append_left _ mem)
    have last := blocks file (List.mem_append_right _ (List.mem_singleton_self _))
      (expected algorithm files)
    rw [List.map_append, List.map_singleton, expected_concat]
    exact foldlM_concat earlier last

/-- The reader gives back what the writer counted, for any list of files whose paths are planned:
each path has the counts of the last file with that path, and no other path has any. A binary file
that is no rename keeps one path, and one that is a rename has no absolute path. Paths read back
from whatever bytes they have. -/
theorem parse_render {planned : List RepoPath} {files : List GitPatch}
    (paths : ∀ file ∈ files, ∀ path ∈ file.paths, path ∈ planned)
    (single : ∀ file ∈ files, file.isBinary = true → file.change ≠ .renamed →
      file.oldPathOr = file.newPathOr)
    (real : ∀ file ∈ files, file.isBinary = true → file.change = .renamed →
      absentPath ∉ file.paths) :
    parse planned (files.flatMap (·.render algorithm)) = .ok (expected algorithm files) ∧
      ∀ lead ∈ ["", "a/", "b/"].map bytesOf, ∀ path : RepoPath,
        decodePath (GitPath.new lead path).bytes = .ok (lead ++ path) := by
  have plain : ∀ lead ∈ ["", "a/", "b/"].map bytesOf, ∀ byte ∈ lead, GitPath.plain byte = true := by
    decide +kernel
  refine ⟨?_, fun lead mem path => decodePath_bytes (plain lead mem) path⟩
  have led : ∀ lines ∈ files.map (fun file => file.headers ++ file.bodyLines algorithm),
      LedBy 10 diffHeader lines := by
    intro lines mem
    obtain ⟨file, -, rfl⟩ := List.mem_map.mp mem
    exact file.ledBy algorithm
  have clean : (10 : UInt8) ∉ diffHeader := by decide
  have pieces : (files.map fun file => file.headers ++ file.bodyLines algorithm).map (closeAll 10) =
      files.map (·.render algorithm) := by
    rw [List.map_map]
    exact List.map_congr_left fun file _ => (file.render_eq algorithm).symm
  have slices := slicesAt_lineStarts clean led
  have starts := lineStarts_pieces clean led
  rw [pieces, ← List.flatMap_def] at slices starts
  have blocks := foldlM_parseBlock algorithm fun file mem taken => file.parseBlock_render algorithm
    (paths file mem) (single file mem) (real file mem) taken
  rw [parse]
  cases files with
  | nil => rfl
  | cons file files =>
    rw [if_neg, slices, blocks]
    rw [starts, List.map_cons, offsets]
    exact List.cons_ne_nil _ _

/-! Runs. -/

/-- Hunks that remove every line and add every line. -/
def wholeHunks : HunkAlgorithm where
  hunks before after _ :=
    [⟨⟨0, (Lines.new before).length⟩, ⟨0, (Lines.new after).length⟩,
      (Lines.new before).map (DiffLineType.removed, [·]) ++
        (Lines.new after).map (DiffLineType.added, [·])⟩]
  left_lines before after _ := by
    simp [List.filter_append, List.filter_map, Function.comp_def]
  right_lines before after _ := by
    simp [List.filter_append, List.filter_map, Function.comp_def]

def part (present isBinary : Bool) (contents : Bytes) : GitDiffPart where
  mode := if present then some (bytesOf "100644") else none
  hash := bytesOf "0123456789"
  isBinary := isBinary
  contents := contents
  mode_line word same := by
    split_ifs at same
    obtain rfl := Option.some.inj same
    decide
  hash_line := by decide

/-- A file without a newline at its end turned into another, at a path in quotes. -/
def edited : GitPatch where
  oldPath := some (bytesOf "a \"b")
  newPath := some (bytesOf "a \"b")
  change := .modified
  before := part true false (bytesOf "-- a\n@@ b")
  after := part true false (bytesOf "diff --git c\n")
  context := 3
  named := rfl
  old_side := rfl
  new_side := rfl

/-- A file renamed and changed. -/
def moved : GitPatch := { edited with
  oldPath := some (bytesOf "old"), newPath := some (bytesOf "new"), change := .renamed }

/-- A copy of a file. -/
def copied (isBinary : Bool) : GitPatch := { edited with
  oldPath := some (bytesOf "old")
  newPath := some (bytesOf "copy")
  change := .added
  before := part true isBinary (bytesOf "a\n")
  after := part true isBinary (bytesOf "b\nc\n") }

theorem parse_render_edited :
    parse [bytesOf "a \"b", bytesOf "old", bytesOf "new"]
      ([edited, moved].flatMap (·.render wholeHunks)) = .ok (expected wholeHunks [edited, moved]) ∧
    expected wholeHunks [edited, moved] (bytesOf "a \"b") = some ⟨1, 2⟩ :=
  ⟨(parse_render wholeHunks (by decide) (by decide) (by decide)).1,
    by decide⟩

/-- Of two files with one path the last counts, and a binary copy has no line that names it. -/
theorem copy_unread : (¬∀ (files : List GitPatch) planned, (∀ file ∈ files, ∀ path ∈ file.paths, path ∈ planned) →
      (∀ file ∈ files, file.isBinary = false) →
      ∃ statistics, parse planned (files.flatMap (·.render wholeHunks)) = .ok statistics ∧
        ∀ file ∈ files, ∀ path ∈ file.paths,
          statistics path = some (file.statistics wholeHunks)) ∧
    ∀ statistics, parse (copied true).paths ((copied true).render wholeHunks) ≠ .ok statistics := by
  have unread : (parse (copied true).paths ((copied true).render wholeHunks)).toBool = false := by
    decide +kernel
  refine ⟨fun all => ?_, fun statistics read => ?_⟩
  case refine_2 =>
    rw [read] at unread
    cases unread
  obtain ⟨statistics, read, own⟩ := all [moved, copied false]
    [bytesOf "old", bytesOf "new", bytesOf "copy"] (by decide) (by decide)
  have first := own moved (List.mem_cons_self ..) (bytesOf "old") (by decide)
  have last := own (copied false) (List.mem_cons_of_mem _ (List.mem_cons_self ..)) (bytesOf "old")
    (by decide)
  exact absurd (first.symm.trans last) (by decide)

end ProgressiveReviewer.JjDiff
