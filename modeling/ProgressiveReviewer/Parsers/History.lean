import ProgressiveReviewer.Parsers.Records

/-! The records of revisions that jj prints (`review-repository/src/repository/jj.rs`,
`jj/records.rs`), and what all parsers of tool output have in common: they end without a panic
but for two records. How escape sequences are stripped comes from outside. -/

namespace ProgressiveReviewer.Parsers

open Library Hunks Marks

/-- The last parts that a mark separates, from the end, and what is before them. -/
def rsplitn (count : Nat) (mark : UInt8) (text : Bytes) : List Bytes :=
  let parts := (text.splitOn mark).reverse
  if parts.length ≤ count then parts
  else parts.take (count - 1) ++ [[mark].intercalate (parts.drop (count - 1)).reverse]

def history (detail : String) : Protocol := ⟨"read jj revision history", detail⟩

inductive RevisionRefKind where
  | bookmark
  | tag
  deriving DecidableEq, Repr

structure RevisionRef where
  kind : RevisionRefKind
  name : String
  deriving DecidableEq, Repr

/-- The identity of the revision of a history row. -/
structure RevisionRecord where
  changeId : String
  commitId : String
  shortChangeId : String
  isCurrent : Bool
  isImmutable : Bool
  deriving DecidableEq, Repr

structure RevisionHistoryLine where
  text : String
  plainText : String
  graphEnd : Option Nat
  shortChangeId : Option String
  changeId : Option String
  commitId : Option String
  isCurrent : Bool
  isImmutable : Bool
  refs : List RevisionRef
  deriving DecidableEq, Repr

structure RevisionCandidate where
  changeId : String
  shortChangeId : String
  description : String
  deriving DecidableEq, Repr

structure JjIdentity where
  changeId : String
  snapshotId : String
  description : String
  displayId : String
  deriving DecidableEq, Repr

def parseRevisionHistoryMarker (marker : Bytes) (invalidDetail : String) : Parsed Bool :=
  if marker = [48] then .ok false
  else if marker = [49] then .ok true
  else .error (history invalidDetail)

/-- The metadata of a history record, separated by colons. -/
def parseRevisionRecord (metadata : Bytes) : Parsed RevisionRecord :=
  let fields := rsplitn 5 58 metadata
  match fields[0]?, fields[1]?, fields[2]?, fields[3]?, fields[4]? with
  | some immutableMarker, some currentMarker, some shortChangeId, some commitId, some changeId => do
    let changeId ← .okOr (history "jj returned a non-UTF-8 revision identifier") (utf8 changeId)
    let commitId ← .okOr (history "jj returned a non-UTF-8 commit identifier") (utf8 commitId)
    let shortChangeId ← .okOr (history "jj returned a non-UTF-8 short revision identifier") (utf8 shortChangeId)
    let isCurrent ← parseRevisionHistoryMarker currentMarker "jj returned an invalid current revision marker"
    let isImmutable ← parseRevisionHistoryMarker immutableMarker
      "jj returned an invalid immutable revision marker"
    return { changeId, commitId, shortChangeId, isCurrent, isImmutable }
  | _, _, _, _, _ => .error (history "jj returned incomplete revision history metadata")

def invalidRef : Protocol := history "jj returned an invalid bookmark or tag"

def refKind (letter : UInt8) : Parsed RevisionRefKind :=
  if letter = 98 then .ok .bookmark
  else if letter = 116 then .ok .tag
  else .error invalidRef

def parseRevisionRef (record : Bytes) : Parsed RevisionRef :=
  match record with
  | [] => .error invalidRef
  | kind :: name => do
    let kind ← refKind kind
    let name ← Outcome.okOr invalidRef (utf8 name)
    if name.isEmpty then .error invalidRef else return { kind, name }

/-- The bookmarks and tags of a history record, each closed by a mark. -/
def parseRevisionRefs (fields : Bytes) : Parsed (List RevisionRef) :=
  if fields.getLast? = some 28 then .collect parseRevisionRef (fields.dropLast.splitOn 28)
  else if fields = [] then .ok []
  else .error invalidRef

variable (strip : Bytes → Bytes)

/-- The first place of a byte from an index on. -/
def positionFrom (line : Bytes) (start : Nat) (byte : UInt8) : Parsed (Option Nat) := do
  let rest ← Outcome.slice line start line.length
  return (rest.findIdx? (· = byte)).map (start + ·)

/-- Where a line's record ends, after where it starts. -/
def recordEnd (line : Bytes) : Option Nat → Parsed (Option Nat)
  | some start => positionFrom line (start + 1) 31
  | none => .ok none

/-- Where the text after a record and its references starts. -/
def displayStart (line : Bytes) : Option Nat → Parsed (Option Nat)
  | some stop => do
    let mark ← positionFrom line (stop + 1) 29
    return mark.map (· + 1)
  | none => .ok none

/-- The text of a line without its record, the record and its references. -/
def splitLine (line : Bytes) :
    Option Nat → Option Nat → Option Nat → Parsed (Bytes × Option RevisionRecord × List RevisionRef)
  | some start, some stop, some display => do
    let metadata ← Outcome.slice line (start + 1) stop
    let record ← parseRevisionRecord (strip metadata)
    let refsEnd ← Outcome.minus display 1
    let refs ← parseRevisionRefs (← Outcome.slice line (stop + 1) refsEnd)
    let graph ← Outcome.slice line 0 start
    let text ← Outcome.slice line display line.length
    return (graph ++ text, some record, refs)
  | none, none, none => .ok (line, none, [])
  | _, _, _ => .error (history "jj returned an incomplete revision history record")

def parseRevisionHistoryLine (line : Bytes) : Parsed RevisionHistoryLine := do
  let start := line.findIdx? (· = 30)
  let stop ← recordEnd line start
  let display ← displayStart line stop
  let (text, record, refs) ← splitLine strip line start stop display
  let plainText := strip text
  let text ← .okOr (history "jj returned non-UTF-8 revision history text") (utf8 text)
  let plainText ← .okOr (history "jj returned non-UTF-8 plain revision history text") (utf8 plainText)
  return {
    text
    plainText
    graphEnd := if record.isSome then start else none
    shortChangeId := record.map RevisionRecord.shortChangeId
    changeId := record.map RevisionRecord.changeId
    commitId := record.map RevisionRecord.commitId
    isCurrent := record.any RevisionRecord.isCurrent
    isImmutable := record.any RevisionRecord.isImmutable
    refs }

def parseRevisionHistory (output : Bytes) : Parsed (List RevisionHistoryLine) :=
  .collect (parseRevisionHistoryLine strip) ((output.splitOn 10).filter (· ≠ []))

def candidates (detail : String) : Protocol := ⟨"read jj revision candidates", detail⟩

def parseCandidate (fields : List Bytes) : Parsed RevisionCandidate := do
  let text := fun value => Outcome.okOr (candidates "jj returned non-UTF-8 revision candidate text") (utf8 value)
  let changeId ← text (← Outcome.entry fields 0)
  let shortChangeId ← text (← Outcome.entry fields 1)
  let description ← text (← Outcome.entry fields 2)
  return { changeId, shortChangeId, description }

def parseRevisionCandidates (output : Bytes) : Parsed (List RevisionCandidate) :=
  if output = [] then .ok []
  else do
    let records ← closedRecords (candidates "jj returned an invalid revision candidate record") 3
      (output.splitOn 0)
    .collect parseCandidate records

def identity (detail : String) : Protocol := ⟨"read jj snapshot identity", detail⟩

/-- Parse the record that the jj identity template prints. -/
def parseIdentity (output : Bytes) : Parsed JjIdentity :=
  let rawFields := output.splitOn 0
  let fields := rawFields.map strip
  if fields.length ≠ 5 then .error (identity "jj returned an invalid identity record")
  else do
    let changeId ← Outcome.entry fields 0
    let commitId ← Outcome.entry fields 1
    let description ← Outcome.entry fields 2
    if changeId = [] ∨ commitId = [] ∨ (← Outcome.entry fields 3) = [] ∨ (← Outcome.entry fields 4) ≠ [] then
      .error (identity "jj returned an invalid identity record")
    else
      let changeId ← Outcome.okOr (identity "jj returned a non-UTF-8 change ID") (utf8 changeId)
      let snapshotId ← Outcome.okOr (identity "jj returned a non-UTF-8 commit ID") (utf8 commitId)
      let description ← Outcome.okOr (identity "jj returned a non-UTF-8 commit description") (utf8 description)
      let displayId ← Outcome.entry rawFields 3
      let displayId ← Outcome.okOr (identity "jj returned a non-UTF-8 display ID") (utf8 displayId)
      return { changeId, snapshotId, description, displayId }

/-! ## No panic -/

theorem returns_marker {marker : Bytes} {detail : String} : (parseRevisionHistoryMarker marker detail).Returns := by
  unfold parseRevisionHistoryMarker
  split_ifs <;> exact nofun

theorem returns_parseRevisionRecord (metadata : Bytes) : (parseRevisionRecord metadata).Returns := by
  unfold parseRevisionRecord
  dsimp only
  split
  · refine Outcome.returns_bind.mpr ⟨Outcome.returns_okOr, fun changeId _ => ?_⟩
    refine Outcome.returns_bind.mpr ⟨Outcome.returns_okOr, fun commitId _ => ?_⟩
    refine Outcome.returns_bind.mpr ⟨Outcome.returns_okOr, fun shortChangeId _ => ?_⟩
    refine Outcome.returns_bind.mpr ⟨returns_marker, fun isCurrent _ => ?_⟩
    exact Outcome.returns_bind.mpr ⟨returns_marker, fun isImmutable _ => nofun⟩
  · exact nofun

theorem returns_parseRevisionRef (record : Bytes) : (parseRevisionRef record).Returns := by
  unfold parseRevisionRef
  split
  · exact Outcome.returns_error
  · refine Outcome.returns_bind.mpr ⟨?_, fun kind _ => ?_⟩
    · unfold refKind
      split_ifs
      · exact Outcome.returns_ok
      · exact Outcome.returns_ok
      · exact Outcome.returns_error
    · refine Outcome.returns_bind.mpr ⟨Outcome.returns_okOr, fun name _ => ?_⟩
      split_ifs
      · exact Outcome.returns_error
      · exact Outcome.returns_ok

theorem returns_parseRevisionRefs (fields : Bytes) : (parseRevisionRefs fields).Returns := by
  unfold parseRevisionRefs
  split_ifs
  · exact Outcome.returns_collect fun record _ => returns_parseRevisionRef record
  · exact nofun
  · exact nofun

/-- A search that starts inside a line ends with a place inside it, if any. -/
theorem positionFrom_eq {line : Bytes} {start : Nat} (byte : UInt8) (inside : start ≤ line.length) :
    ∃ found, positionFrom line start byte = .ok found ∧ ∀ index ∈ found, start ≤ index ∧ index < line.length := by
  unfold positionFrom
  rw [Outcome.slice_of_le inside (Nat.le_refl _), Outcome.ok_bind, List.take_length]
  refine ⟨_, rfl, fun index mem => ?_⟩
  obtain ⟨offset, found, rfl⟩ := Option.map_eq_some_iff.mp mem
  have below := (List.findIdx?_eq_some_iff_findIdx_eq.mp found).1
  rw [List.length_drop] at below
  omega

/-- The places of a line's record and text lie in order inside the line. -/
structure Marked (line : Bytes) (start stop display : Nat) : Prop where
  record : start + 1 ≤ stop
  refs : stop + 1 ≤ display - 1
  text : display ≤ line.length

theorem returns_splitLine {line : Bytes} {start stop display : Option Nat}
    (marked : ∀ a ∈ start, ∀ b ∈ stop, ∀ c ∈ display, Marked line a b c) :
    (splitLine strip line start stop display).Returns := by
  unfold splitLine
  split
  · next start stop display =>
    obtain ⟨record, refs, text⟩ := marked start rfl stop rfl display rfl
    rw [Outcome.slice_of_le record (by omega), Outcome.ok_bind]
    refine Outcome.returns_bind.mpr ⟨returns_parseRevisionRecord _, fun _ _ => ?_⟩
    rw [Outcome.minus_of_le (by omega), Outcome.ok_bind, Outcome.slice_of_le refs (by omega), Outcome.ok_bind]
    refine Outcome.returns_bind.mpr ⟨returns_parseRevisionRefs _, fun _ _ => ?_⟩
    rw [Outcome.slice_of_le (Nat.zero_le _) (by omega), Outcome.ok_bind,
      Outcome.slice_of_le text (Nat.le_refl _), Outcome.ok_bind]
    exact nofun
  · exact nofun
  · exact nofun

theorem returns_parseRevisionHistoryLine (line : Bytes) : (parseRevisionHistoryLine strip line).Returns := by
  have stops : ∃ stop, recordEnd line (line.findIdx? (· = 30)) = .ok stop ∧
      ∀ b ∈ stop, b < line.length ∧ ∀ a ∈ line.findIdx? (· = 30), a + 1 ≤ b := by
    cases found : line.findIdx? (· = 30) with
    | none => exact ⟨none, rfl, nofun⟩
    | some start =>
      have inside := (List.findIdx?_eq_some_iff_findIdx_eq.mp found).1
      obtain ⟨stop, run, after⟩ := positionFrom_eq 31 (Nat.succ_le_of_lt inside)
      exact ⟨stop, run, fun b mem => ⟨(after b mem).2, fun a mem' => Option.some.inj mem' ▸ (after b mem).1⟩⟩
  obtain ⟨stop, run, ordered⟩ := stops
  have displays : ∃ display, displayStart line stop = .ok display ∧
      ∀ c ∈ display, c ≤ line.length ∧ ∀ b ∈ stop, b + 1 ≤ c - 1 := by
    cases stop with
    | none => exact ⟨none, rfl, nofun⟩
    | some stop =>
      obtain ⟨mark, found, after⟩ := positionFrom_eq 29 (Nat.succ_le_of_lt (ordered stop rfl).1)
      refine ⟨mark.map (· + 1), ?_, fun c mem => ?_⟩
      · change (positionFrom line stop.succ 29 >>= _) = _
        rw [found]
        rfl
      · obtain ⟨index, held, rfl⟩ := Option.map_eq_some_iff.mp mem
        obtain ⟨low, high⟩ := after index held
        refine ⟨high, fun b mem' => ?_⟩
        obtain rfl := Option.some.inj mem'
        exact low
  obtain ⟨display, run', ordered'⟩ := displays
  unfold parseRevisionHistoryLine
  dsimp only
  rw [run, Outcome.ok_bind, run', Outcome.ok_bind]
  refine Outcome.returns_bind.mpr ⟨returns_splitLine strip fun a memA b memB c memC => ?_, fun _ _ => ?_⟩
  · exact ⟨(ordered b memB).2 a memA, (ordered' c memC).2 b memB, (ordered' c memC).1⟩
  · refine Outcome.returns_bind.mpr ⟨Outcome.returns_okOr, fun text _ => ?_⟩
    exact Outcome.returns_bind.mpr ⟨Outcome.returns_okOr, fun plainText _ => nofun⟩

theorem returns_parseRevisionHistory (output : Bytes) : (parseRevisionHistory strip output).Returns :=
  Outcome.returns_collect fun line _ => returns_parseRevisionHistoryLine strip line

theorem returns_parseCandidate {fields : List Bytes} (three : fields.length = 3) :
    (parseCandidate fields).Returns := by
  unfold parseCandidate
  simp only [Outcome.entry_of_lt (show 0 < fields.length by omega), Outcome.ok_bind,
    Outcome.entry_of_lt (show 1 < fields.length by omega),
    Outcome.entry_of_lt (show 2 < fields.length by omega)]
  refine Outcome.returns_bind.mpr ⟨Outcome.returns_okOr, fun changeId _ => ?_⟩
  refine Outcome.returns_bind.mpr ⟨Outcome.returns_okOr, fun shortChangeId _ => ?_⟩
  exact Outcome.returns_bind.mpr ⟨Outcome.returns_okOr, fun description _ => nofun⟩

theorem returns_parseRevisionCandidates (output : Bytes) : (parseRevisionCandidates output).Returns := by
  unfold parseRevisionCandidates
  split
  · exact nofun
  · obtain refused | ⟨records, run, three⟩ := closedRecords_spec
      (candidates "jj returned an invalid revision candidate record") 3 (List.splitOn_ne_nil 0 output)
    · rw [refused]
      exact nofun
    · rw [run, Outcome.ok_bind]
      exact Outcome.returns_collect fun record mem => returns_parseCandidate (three record mem)

theorem exists_five {α : Type} {fields : List α} (five : fields.length = 5) :
    ∃ first second third fourth fifth, fields = [first, second, third, fourth, fifth] := by
  rcases fields with _ | ⟨first, _ | ⟨second, _ | ⟨third, _ | ⟨fourth, _ | ⟨fifth, _ | _⟩⟩⟩⟩⟩
  case cons.cons.cons.cons.cons.nil => exact ⟨first, second, third, fourth, fifth, rfl⟩
  all_goals simp at five

theorem returns_parseIdentity (output : Bytes) : (parseIdentity strip output).Returns := by
  unfold parseIdentity
  dsimp only
  split
  · exact Outcome.returns_error
  · next five =>
    generalize output.splitOn 0 = rawFields at five ⊢
    obtain ⟨first, second, third, fourth, fifth, rfl⟩ := exists_five (List.length_map strip ▸ not_not.mp five)
    simp only [List.map_cons, List.map_nil, Outcome.entry, List.getElem?_cons_zero, List.getElem?_cons_succ,
      Outcome.expect_some, Outcome.ok_bind]
    split_ifs
    · exact Outcome.returns_error
    · refine Outcome.returns_bind.mpr ⟨Outcome.returns_okOr, fun changeId _ => ?_⟩
      refine Outcome.returns_bind.mpr ⟨Outcome.returns_okOr, fun snapshotId _ => ?_⟩
      refine Outcome.returns_bind.mpr ⟨Outcome.returns_okOr, fun description _ => ?_⟩
      exact Outcome.returns_bind.mpr ⟨Outcome.returns_okOr, fun displayId _ => Outcome.returns_ok⟩

/-- Every line counts once at most, so 64 bits hold the counts of any text in memory. -/
theorem lines_fromUnifiedDiff_le (diff : Bytes) : (DiffStatistics.fromUnifiedDiff diff).lines ≤ diff.length + 1 := by
  have parts : ∀ text : Bytes, (text.splitOnP isNewline).length ≤ text.length + 1 := by
    intro text
    induction text with
    | nil => simp
    | cons byte text ih =>
      rw [List.splitOnP_cons_eq_if_modifyHead]
      split
      · simpa using ih
      · rw [List.length_modifyHead, List.length_cons]
        omega
  have counted : ∀ (lines : List Bytes) (start : Bool × DiffStatistics),
      (lines.foldl DiffStatistics.read start).2.lines ≤ start.2.lines + lines.length := by
    intro lines
    induction lines with
    | nil => exact fun _ => Nat.le_refl _
    | cons line lines ih =>
      intro start
      have one : (DiffStatistics.read start line).2.lines ≤ start.2.lines + 1 := by
        unfold DiffStatistics.read DiffStatistics.lines
        dsimp only
        split_ifs <;> dsimp only <;> omega
      rw [List.foldl_cons, List.length_cons]
      have rest := ih (DiffStatistics.read start line)
      omega
  have all := counted (diff.splitOnP isNewline) (false, .zero)
  rw [show (DiffStatistics.zero).lines = 0 from rfl, Nat.zero_add] at all
  exact Nat.le_trans all (parts diff)

/-- The parsers of tool output end without a panic but for a lone quote as the path of a marker
line and for a Git record without either side, where these are what the parser comes to first. -/
theorem parsers_return_iff (strip : Bytes → Bytes) :
    (∀ plannedPaths output, (JjGitDiffParser.parse plannedPaths output).Returns ↔
      ¬ Outcome.StopsAt (JjGitDiffParser.Accepted plannedPaths) JjGitDiffParser.Stuck
        (JjGitDiffParser.blocks output)) ∧
    (∀ output, (parseGit output).Returns ↔ ¬ PathlessDiff output) ∧
    (∀ output, (parseGitStats output).Returns) ∧
    (∀ output, (parseJj output).Returns) ∧
    (∀ files output, (addJjStats files output).Returns) ∧
    (∀ output, (parseRevisionHistory strip output).Returns) ∧
    (∀ line, (parseRevisionHistoryLine strip line).Returns) ∧
    (∀ fields, (parseRevisionRefs fields).Returns) ∧
    (∀ output, (parseRevisionCandidates output).Returns) ∧
    ∀ output, (parseIdentity strip output).Returns := by
  refine ⟨JjGitDiffParser.returns_parse, returns_parseGit, fun output => ?_, returns_parseJj,
    returns_addJjStats, returns_parseRevisionHistory strip, returns_parseRevisionHistoryLine strip,
    returns_parseRevisionRefs, returns_parseRevisionCandidates, returns_parseIdentity strip⟩
  rw [parseGitStats_eq]
  exact Outcome.returns_ofExcept

/-- A marker line that ends in one quote, and a record of a path that merges nothing. -/
theorem malformed_output_panics :
    ¬ (JjGitDiffParser.parse [] (bytesOf "diff --git a/f b/f\n--- \"\n")).Returns ∧
      ¬ (parseGit (bytesOf ":000000 000000 0 0 U" ++ 0 :: bytesOf "f" ++ [0])).Returns := by
  decide +kernel

end ProgressiveReviewer.Parsers
