import ProgressiveReviewer.Library.Outcomes
import ProgressiveReviewer.Marks.Git

/-! How the Git diff that jj prints for a review plan is read
(`review-repository/src/repository/jj/git_diff.rs`, `jj/git_path.rs`). Slices, differences and
narrow numbers panic outside their bounds. -/

namespace ProgressiveReviewer.Parsers

open Library Hunks Marks

/-- A record that a tool printed and that the parser refuses. -/
structure Protocol where
  operation : String
  detail : String
  deriving DecidableEq, Repr

abbrev Parsed (α : Type) := Outcome Protocol α

def stripPrefix (mark text : Bytes) : Option Bytes :=
  if mark.isPrefixOf text then some (text.drop mark.length) else none

theorem stripPrefix_eq_some {mark text rest : Bytes} : stripPrefix mark text = some rest ↔ text = mark ++ rest := by
  unfold stripPrefix
  split
  · next leads =>
    obtain ⟨tail, rfl⟩ := List.isPrefixOf_iff_prefix.mp leads
    rw [List.drop_left, Option.some_inj, List.append_cancel_left_eq]
  · next leads =>
    refine ⟨nofun, fun same => absurd ?_ leads⟩
    exact List.isPrefixOf_iff_prefix.mpr ⟨rest, same.symm⟩

/-! ## Paths as Git writes them -/

/-- Whether Git would quote a path. -/
def quotes (path : RepoPath) : Bool := !path.all fun byte => 33 ≤ byte && byte ≤ 126 && byte ≠ 34 && byte ≠ 92

/-- One byte of a quoted path. -/
def quotedByte (byte : UInt8) : Bytes :=
  match byte with
  | 92 | 34 => [92, byte]
  | 9 => [92, 116]
  | 10 => [92, 110]
  | 13 => [92, 114]
  | _ =>
    if 32 ≤ byte ∧ byte ≤ 126 then [byte]
    else [92, (48 : UInt8) + byte >>> 6, (48 : UInt8) + (byte >>> 3 &&& 7), (48 : UInt8) + (byte &&& 7)]

def gitPath (mark : Bytes) (path : RepoPath) (quote : Bool) : Bytes :=
  if quote then 34 :: (mark ++ path.flatMap quotedByte ++ [34]) else mark ++ path

namespace JjGitDiffParser

def descriptionDiffPaths : Bytes := bytesOf "--- JJ-COMMIT-DESCRIPTION\n+++ JJ-COMMIT-DESCRIPTION\n"

def diffHeader : Bytes := bytesOf "diff --git "

def pathMarkers : List (Bytes × Option Bytes) :=
  [(bytesOf "--- ", some (bytesOf "a/")), (bytesOf "+++ ", some (bytesOf "b/")),
    (bytesOf "rename from ", none), (bytesOf "rename to ", none),
    (bytesOf "copy from ", none), (bytesOf "copy to ", none)]

def invalidDiff (detail : String) : Protocol := ⟨"compare jj review baselines", detail⟩

def invalidPath : Protocol := invalidDiff "jj returned an invalid escaped Git path"

def isOctal (byte : UInt8) : Bool := 48 ≤ byte && byte ≤ 55

def octalDigit (byte : UInt8) : Parsed Nat := .minus byte.toNat 48

/-- Three octal digits as a byte, computed in 16 bits. -/
def decodeOctalEscape (first : UInt8) : Bytes → Parsed (UInt8 × Bytes)
  | second :: third :: rest =>
    if !isOctal second || !isOctal third then .error invalidPath
    else do
      let value ← Outcome.within (2 ^ 16) ((← octalDigit first) * 64)
      let value ← Outcome.within (2 ^ 16) (value + (← Outcome.within (2 ^ 16) ((← octalDigit second) * 8)))
      let value ← Outcome.within (2 ^ 16) (value + (← octalDigit third))
      if value < 256 then .ok (UInt8.ofNat value, rest) else .error invalidPath
  | _ => .error invalidPath

/-- The escapes of one letter, and the bytes they stand for. -/
def escapes : List (UInt8 × UInt8) :=
  [(92, 92), (34, 34), (97, 7), (98, 8), (116, 9), (110, 10), (118, 11), (102, 12), (114, 13)]

def decodeEscape : Bytes → Parsed (UInt8 × Bytes)
  | [] => .error invalidPath
  | escaped :: rest =>
    match escapes.lookup escaped with
    | some byte => .ok (byte, rest)
    | none => if isOctal escaped then decodeOctalEscape escaped rest else .error invalidPath

def octalValue (first second third : UInt8) : Nat :=
  (first.toNat - 48) * 64 + (second.toNat - 48) * 8 + (third.toNat - 48)

theorem isOctal_bounds {byte : UInt8} (octal : isOctal byte = true) : 48 ≤ byte.toNat ∧ byte.toNat ≤ 55 := by
  simp only [isOctal, Bool.and_eq_true, decide_eq_true_eq, UInt8.le_iff_toNat_le] at octal
  exact octal

/-- Three octal digits never leave 16 bits. -/
theorem decodeOctalEscape_octal {first second third : UInt8} {rest : Bytes} (one : isOctal first = true)
    (two : isOctal second = true) (three : isOctal third = true) :
    decodeOctalEscape first (second :: third :: rest) =
      if octalValue first second third < 256 then .ok (UInt8.ofNat (octalValue first second third), rest)
      else .error invalidPath := by
  obtain ⟨low, high⟩ := isOctal_bounds one
  obtain ⟨low', high'⟩ := isOctal_bounds two
  obtain ⟨low'', high''⟩ := isOctal_bounds three
  unfold decodeOctalEscape octalDigit
  simp only [two, three, Bool.not_true, Bool.or_self, Bool.false_eq_true, if_false,
    Outcome.minus_of_le low, Outcome.minus_of_le low', Outcome.minus_of_le low'', Outcome.ok_bind]
  rw [Outcome.within_of_lt (by omega)]
  simp only [Outcome.ok_bind]
  rw [Outcome.within_of_lt (by omega)]
  simp only [Outcome.ok_bind]
  rw [Outcome.within_of_lt (by omega)]
  simp only [Outcome.ok_bind]
  rw [Outcome.within_of_lt (by omega)]
  rfl

/-- One escape: a letter, or three octal digits of a byte. -/
inductive Escaped : Bytes → UInt8 → Bytes → Prop
  | letter {letter byte : UInt8} {rest : Bytes} (named : escapes.lookup letter = some byte) :
      Escaped (letter :: rest) byte rest
  | octal {first second third : UInt8} {rest : Bytes} (plain : escapes.lookup first = none)
      (one : isOctal first = true) (two : isOctal second = true) (three : isOctal third = true)
      (fits : octalValue first second third < 256) :
      Escaped (first :: second :: third :: rest) (UInt8.ofNat (octalValue first second third)) rest

theorem Escaped.read {bytes rest : Bytes} {byte : UInt8} (escaped : Escaped bytes byte rest) :
    decodeEscape bytes = .ok (byte, rest) := by
  cases escaped with
  | letter named => simp only [decodeEscape, named]
  | octal plain one two three fits =>
    simp only [decodeEscape, plain, one, if_true]
    rw [decodeOctalEscape_octal one two three, if_pos fits]

theorem decodeOctalEscape_cases {first : UInt8} {bytes : Bytes} (plain : escapes.lookup first = none)
    (one : isOctal first = true) :
    decodeOctalEscape first bytes = .error invalidPath ∨
      ∃ byte rest, decodeOctalEscape first bytes = .ok (byte, rest) ∧ Escaped (first :: bytes) byte rest := by
  match bytes with
  | [] | [_] => exact .inl rfl
  | second :: third :: rest =>
    by_cases digits : isOctal second = true ∧ isOctal third = true
    · rw [decodeOctalEscape_octal one digits.1 digits.2]
      by_cases fits : octalValue first second third < 256
      · exact .inr ⟨_, rest, if_pos fits, .octal plain one digits.1 digits.2 fits⟩
      · exact .inl (if_neg fits)
    · refine .inl (if_pos ?_)
      rcases not_and_or.mp digits with none | none <;> simp [none]

/-- An escape is refused or read; it never panics. -/
theorem decodeEscape_cases (bytes : Bytes) : decodeEscape bytes = .error invalidPath ∨
    ∃ byte rest, decodeEscape bytes = .ok (byte, rest) ∧ Escaped bytes byte rest := by
  match bytes with
  | [] => exact .inl rfl
  | escaped :: rest =>
    cases named : escapes.lookup escaped with
    | some byte =>
      refine .inr ⟨byte, rest, ?_, .letter named⟩
      simp only [decodeEscape, named]
    | none =>
      have run : decodeEscape (escaped :: rest) =
          if isOctal escaped then decodeOctalEscape escaped rest else .error invalidPath := by
        simp only [decodeEscape, named]
      rw [run]
      split
      · next one => exact decodeOctalEscape_cases named one
      · exact .inl rfl

theorem Escaped.shorter {bytes rest : Bytes} {byte : UInt8} (escaped : Escaped bytes byte rest) :
    rest.length < bytes.length := by
  cases escaped with
  | letter named => exact Nat.lt_succ_self _
  | octal plain one two three fits =>
    simp only [List.length_cons]
    omega

theorem decodeEscape_shorter {bytes rest : Bytes} {byte : UInt8}
    (read : decodeEscape bytes = .ok (byte, rest)) : rest.length < bytes.length := by
  obtain none | ⟨byte', rest', got, escaped⟩ := decodeEscape_cases bytes
  · cases none.symm.trans read
  · cases got.symm.trans read
    exact escaped.shorter

/-- The bytes that a quoted path's text spells. -/
def decodeBytes : Bytes → Parsed Bytes
  | [] => .ok []
  | byte :: rest =>
    if byte = 92 then
      match read : decodeEscape rest with
      | .ok (byte, rest') => do
        have := decodeEscape_shorter read
        return byte :: (← decodeBytes rest')
      | .error reason => .error reason
      | .panicked => .panicked
    else do
      return byte :: (← decodeBytes rest)
  termination_by bytes => bytes.length
  decreasing_by all_goals (simp only [List.length_cons]; omega)

/-- The text of a quoted path and the bytes it spells. -/
inductive Spells : Bytes → Bytes → Prop
  | nil : Spells [] []
  | plain {byte : UInt8} {rest path : Bytes} (plain : byte ≠ 92) (spells : Spells rest path) :
      Spells (byte :: rest) (byte :: path)
  | escaped {bytes rest path : Bytes} {byte : UInt8} (escaped : Escaped bytes byte rest)
      (spells : Spells rest path) : Spells (92 :: bytes) (byte :: path)

theorem decodeBytes_escape {bytes rest : Bytes} {byte : UInt8} (escaped : Escaped bytes byte rest) :
    decodeBytes (92 :: bytes) = (do return byte :: (← decodeBytes rest)) := by
  rw [decodeBytes, if_pos rfl]
  split
  · next got =>
    cases got.symm.trans escaped.read
    rfl
  · next got => cases got.symm.trans escaped.read
  · next got => cases got.symm.trans escaped.read

theorem decodeBytes_refuse {bytes : Bytes} (refused : decodeEscape bytes = .error invalidPath) :
    decodeBytes (92 :: bytes) = .error invalidPath := by
  rw [decodeBytes, if_pos rfl]
  split
  · next got => cases got.symm.trans refused
  · next got =>
    cases got.symm.trans refused
    rfl
  · next got => cases got.symm.trans refused

theorem decodeBytes_plain {byte : UInt8} {rest : Bytes} (plain : byte ≠ 92) :
    decodeBytes (byte :: rest) = (do return byte :: (← decodeBytes rest)) := by
  rw [decodeBytes, if_neg plain]

theorem Spells.read {bytes path : Bytes} (spells : Spells bytes path) : decodeBytes bytes = .ok path := by
  induction spells with
  | nil => rw [decodeBytes]
  | plain plain _ ih => rw [decodeBytes_plain plain, ih, Outcome.ok_bind, Outcome.pure_eq_ok]
  | escaped escaped _ ih => rw [decodeBytes_escape escaped, ih, Outcome.ok_bind, Outcome.pure_eq_ok]

/-- A quoted text is refused or spells a path; reading it ends without a panic. -/
theorem decodeBytes_cases (bytes : Bytes) : decodeBytes bytes = .error invalidPath ∨
    ∃ path, decodeBytes bytes = .ok path ∧ Spells bytes path := by
  induction bytes using decodeBytes.induct with
  | case1 => exact .inr ⟨[], by rw [decodeBytes], .nil⟩
  | case2 rest byte rest' read _ ih =>
    obtain refused | ⟨byte', rest'', got, escaped⟩ := decodeEscape_cases rest
    · cases refused.symm.trans read
    · cases got.symm.trans read
      rw [decodeBytes_escape escaped]
      obtain refused | ⟨path, got, spells⟩ := ih
      · rw [refused]
        exact .inl rfl
      · rw [got]
        exact .inr ⟨_, rfl, .escaped escaped spells⟩
  | case3 rest reason read =>
    obtain refused | ⟨byte', rest'', got, escaped⟩ := decodeEscape_cases rest
    · exact .inl (decodeBytes_refuse refused)
    · cases got.symm.trans read
  | case4 rest read =>
    obtain refused | ⟨byte', rest'', got, escaped⟩ := decodeEscape_cases rest
    · cases refused.symm.trans read
    · cases got.symm.trans read
  | case5 byte rest plain ih =>
    rw [decodeBytes_plain plain]
    obtain refused | ⟨path, got, spells⟩ := ih
    · rw [refused]
      exact .inl rfl
    · rw [got]
      exact .inr ⟨_, rfl, .plain plain spells⟩

def decodePath (encodedPath : Bytes) : Parsed Bytes :=
  if encodedPath.head? ≠ some 34 then .ok encodedPath
  else if encodedPath.getLast? ≠ some 34 then .error invalidPath
  else do
    -- The capacity of the decoded path.
    let _ ← Outcome.minus encodedPath.length 2
    let stop ← Outcome.minus encodedPath.length 1
    let bytes ← Outcome.slice encodedPath 1 stop
    decodeBytes bytes

/-- A path as a marker line writes it. -/
inductive Written : Bytes → Bytes → Prop
  | plain {path : Bytes} (unquoted : path.head? ≠ some 34) : Written path path
  | quoted {text path : Bytes} (spells : Spells text path) : Written (34 :: (text ++ [34])) path

/-- A lone quote has no room for both quotes of a path. -/
theorem decodePath_quote : decodePath [34] = .panicked := by decide

theorem decodePath_quoted {text : Bytes} : decodePath (34 :: (text ++ [34])) = decodeBytes text := by
  have length : (34 :: (text ++ [34])).length = text.length + 2 := by simp
  have last : (34 :: (text ++ [34])).getLast? = some (34 : UInt8) := by
    rw [← List.cons_append, List.getLast?_concat]
  have inner : ((34 :: (text ++ [34])).take (text.length + 2 - 1)).drop 1 = text := by
    simp
  unfold decodePath
  rw [if_neg (by simp), if_neg (by simp [last]), length, Outcome.minus_of_le (by omega), Outcome.ok_bind,
    Outcome.minus_of_le (by omega), Outcome.ok_bind,
    Outcome.slice_of_le (by omega) (by rw [length]; omega), Outcome.ok_bind, inner]

theorem Written.read {encodedPath path : Bytes} (written : Written encodedPath path) :
    decodePath encodedPath = .ok path := by
  cases written with
  | plain unquoted => exact if_pos unquoted
  | quoted spells => exact decodePath_quoted.trans spells.read

theorem decodePath_cases {encodedPath : Bytes} (several : encodedPath ≠ [34]) :
    decodePath encodedPath = .error invalidPath ∨
      ∃ path, decodePath encodedPath = .ok path ∧ Written encodedPath path := by
  by_cases unquoted : encodedPath.head? ≠ some 34
  · exact .inr ⟨encodedPath, if_pos unquoted, .plain unquoted⟩
  · by_cases ends : encodedPath.getLast? ≠ some 34
    · exact .inl (by rw [decodePath, if_neg unquoted, if_pos ends])
    · obtain ⟨text, rfl⟩ : ∃ text, encodedPath = 34 :: (text ++ [34]) := by
        match encodedPath with
        | [] => exact absurd nofun unquoted
        | [byte] =>
          obtain rfl := Option.some.inj (not_not.mp unquoted)
          exact absurd rfl several
        | byte :: second :: rest =>
          obtain rfl := Option.some.inj (not_not.mp unquoted)
          have last := not_not.mp ends
          rw [List.getLast?_cons_cons, List.getLast?_eq_some_iff] at last
          obtain ⟨text, same⟩ := last
          exact ⟨text, congrArg (34 :: ·) same⟩
      rw [decodePath_quoted]
      exact (decodeBytes_cases text).imp id fun ⟨path, read, spells⟩ => ⟨path, read, .quoted spells⟩

/-- The path that a marker's line holds, below the prefix that the marker asks for. -/
def markedPath (requiredPrefix : Option Bytes) (encodedPath : Bytes) : Parsed (Option Bytes) :=
  if encodedPath = bytesOf "/dev/null" then .ok none
  else do
    let decodedPath ← decodePath encodedPath
    match requiredPrefix with
    | some required =>
      let path ← Outcome.okOr (invalidDiff "jj returned an invalid Git path marker")
        (stripPrefix required decodedPath)
      return some path
    | none => return some decodedPath

def pathFromMarkers (line : Bytes) : List (Bytes × Option Bytes) → Parsed (Option Bytes)
  | [] => .ok none
  | (marker, requiredPrefix) :: markers =>
    match stripPrefix marker line with
    | none => pathFromMarkers line markers
    | some encodedPath => markedPath requiredPrefix encodedPath

def pathFromMarkerLine (line : Bytes) : Parsed (Option Bytes) := pathFromMarkers line pathMarkers

/-- A line is one marker's at most. -/
theorem marker_unique {line : Bytes} {one other : Bytes × Option Bytes} (mem : one ∈ pathMarkers)
    (mem' : other ∈ pathMarkers) (leads : one.1 <+: line) (leads' : other.1 <+: line) : one = other := by
  have apart : ∀ one ∈ pathMarkers, ∀ other ∈ pathMarkers, one.1.isPrefixOf other.1 → one = other := by
    decide
  rcases List.prefix_or_prefix_of_prefix leads leads' with inside | inside
  · exact apart one mem other mem' (List.isPrefixOf_iff_prefix.mpr inside)
  · exact (apart other mem' one mem (List.isPrefixOf_iff_prefix.mpr inside)).symm

theorem pathFromMarkerLine_marked {marker encodedPath : Bytes} {requiredPrefix : Option Bytes}
    (mem : (marker, requiredPrefix) ∈ pathMarkers) :
    pathFromMarkerLine (marker ++ encodedPath) = markedPath requiredPrefix encodedPath := by
  have find : ∀ markers : List (Bytes × Option Bytes), (∀ one ∈ markers, one ∈ pathMarkers) →
      (marker, requiredPrefix) ∈ markers →
      pathFromMarkers (marker ++ encodedPath) markers = markedPath requiredPrefix encodedPath := by
    intro markers all
    induction markers with
    | nil => exact nofun
    | cons first markers ih =>
      intro held
      obtain ⟨known, all⟩ := List.forall_mem_cons.mp all
      unfold pathFromMarkers
      cases stripped : stripPrefix first.1 (marker ++ encodedPath) with
      | none =>
        rcases List.mem_cons.mp held with rfl | held
        · rw [stripPrefix_eq_some.mpr rfl] at stripped
          cases stripped
        · exact ih all held
      | some rest =>
        have same := stripPrefix_eq_some.mp stripped
        obtain rfl := marker_unique known mem ⟨rest, same.symm⟩ ⟨encodedPath, rfl⟩
        rw [List.append_cancel_left same]
  exact find pathMarkers (fun _ => id) mem

theorem pathFromMarkerLine_unmarked {line : Bytes}
    (unmarked : ∀ marker ∈ pathMarkers, ¬ marker.1 <+: line) : pathFromMarkerLine line = .ok none := by
  have skip : ∀ markers : List (Bytes × Option Bytes), (∀ one ∈ markers, one ∈ pathMarkers) →
      pathFromMarkers line markers = .ok none := by
    intro markers all
    induction markers with
    | nil => rfl
    | cons first markers ih =>
      obtain ⟨known, all⟩ := List.forall_mem_cons.mp all
      unfold pathFromMarkers
      cases stripped : stripPrefix first.1 line with
      | none => exact ih all
      | some rest => exact absurd ⟨rest, (stripPrefix_eq_some.mp stripped).symm⟩ (unmarked first known)
  exact skip pathMarkers fun _ => id

/-- A line that names a path. -/
def Names (line path : Bytes) : Prop :=
  ∃ marker requiredPrefix encodedPath, (marker, requiredPrefix) ∈ pathMarkers ∧
    line = marker ++ encodedPath ∧ encodedPath ≠ bytesOf "/dev/null" ∧
    Written encodedPath (requiredPrefix.getD [] ++ path)

/-- A line without a path: no marker's, or a marker's for a file that is not there. -/
def Silent (line : Bytes) : Prop :=
  (∀ marker ∈ pathMarkers, ¬ marker.1 <+: line) ∨
    ∃ marker ∈ pathMarkers, line = marker.1 ++ bytesOf "/dev/null"

/-- A marker's line whose path is one quote. -/
def LoneQuote (line : Bytes) : Prop := ∃ marker ∈ pathMarkers, line = marker.1 ++ [34]

theorem Names.read {line path : Bytes} (names : Names line path) :
    pathFromMarkerLine line = .ok (some path) := by
  obtain ⟨marker, requiredPrefix, encodedPath, mem, rfl, there, written⟩ := names
  rw [pathFromMarkerLine_marked mem, markedPath, if_neg there, written.read, Outcome.ok_bind]
  cases requiredPrefix with
  | none => rfl
  | some required =>
    dsimp only [Option.getD_some]
    rw [stripPrefix_eq_some.mpr rfl]
    rfl

theorem Silent.read {line : Bytes} (silent : Silent line) : pathFromMarkerLine line = .ok none := by
  rcases silent with unmarked | ⟨⟨marker, requiredPrefix⟩, mem, rfl⟩
  · exact pathFromMarkerLine_unmarked unmarked
  · rw [pathFromMarkerLine_marked mem, markedPath, if_pos rfl]

theorem LoneQuote.read {line : Bytes} (lone : LoneQuote line) : pathFromMarkerLine line = .panicked := by
  obtain ⟨⟨marker, requiredPrefix⟩, mem, rfl⟩ := lone
  rw [pathFromMarkerLine_marked mem, markedPath, if_neg (by decide), decodePath_quote]
  rfl

theorem pathFromMarkerLine_cases (line : Bytes) : LoneQuote line ∨ Silent line ∨
    (∃ path, Names line path) ∨ ∃ reason, pathFromMarkerLine line = .error reason := by
  by_cases marked : ∃ marker ∈ pathMarkers, marker.1 <+: line
  · obtain ⟨⟨marker, requiredPrefix⟩, mem, encodedPath, rfl⟩ := marked
    by_cases absent : encodedPath = bytesOf "/dev/null"
    · exact .inr (.inl (.inr ⟨_, mem, congrArg _ absent⟩))
    · by_cases lone : encodedPath = [34]
      · exact .inl ⟨_, mem, congrArg _ lone⟩
      · rw [pathFromMarkerLine_marked mem, markedPath, if_neg absent]
        obtain refused | ⟨decoded, read, written⟩ := decodePath_cases lone
        · exact .inr (.inr (.inr ⟨_, by rw [refused]; rfl⟩))
        · rw [read, Outcome.ok_bind]
          cases requiredPrefix with
          | none => exact .inr (.inr (.inl ⟨decoded, marker, none, encodedPath, mem, rfl, absent, written⟩))
          | some required =>
            dsimp only
            cases stripped : stripPrefix required decoded with
            | none => exact .inr (.inr (.inr ⟨_, rfl⟩))
            | some path =>
              obtain rfl := stripPrefix_eq_some.mp stripped
              exact .inr (.inr (.inl ⟨path, marker, some required, encodedPath, mem, rfl, absent, written⟩))
  · exact .inr (.inl (.inl fun marker mem leads => marked ⟨marker, mem, leads⟩))

/-! ## Blocks -/

def contains (pattern text : Bytes) : Bool := (windows pattern.length text).any (· = pattern)

/-- Where the lines before a block's first hunk end. -/
def headerEnd (block : Bytes) : Nat :=
  match (windows 4 block).findIdx? (· = bytesOf "\n@@ ") with
  | some newline => newline + 1
  | none => block.length

def header (block : Bytes) : Parsed Bytes := .slice block 0 (headerEnd block)

def firstLineEnd (block : Bytes) : Nat := (block.findIdx? (· = 10)).getD block.length

def samePathHeader (path : RepoPath) (quotePaths : Bool) : Bytes :=
  diffHeader ++ gitPath (bytesOf "a/") path quotePaths ++ 32 :: gitPath (bytesOf "b/") path quotePaths

variable (plannedPaths : List RepoPath)

/-- The statistics, and whether a planned path has the block's header. -/
def matchModeOnlyHeader (block : Bytes) (statistics : PathStatistics) : Parsed (PathStatistics × Bool) := do
  let header ← Outcome.slice block 0 (firstLineEnd block)
  match plannedPaths.find? fun path => samePathHeader path false = header || samePathHeader path true = header with
  | some path => return (Function.update statistics path (some .zero), true)
  | none => return (statistics, false)

/-- Read a line of a header: a planned path takes the block's statistics. -/
def readMarker (counted : DiffStatistics) (matched : PathStatistics × Bool) (line : Bytes) :
    Parsed (PathStatistics × Bool) := do
  match ← pathFromMarkerLine line with
  | none => return matched
  | some path =>
    if path ∈ plannedPaths then return (Function.update matched.1 path (some counted), true)
    else return matched

/-- A block without a planned path on its marker lines has one in its header. -/
def requireMatch (block : Bytes) (matched : PathStatistics × Bool) : Parsed PathStatistics := do
  let matched ← if matched.2 then .ok matched else matchModeOnlyHeader plannedPaths block matched.1
  if matched.2 then return matched.1
  else .error (invalidDiff "jj returned a path outside the comparison plan")

def parseBlock (block : Bytes) (statistics : PathStatistics) : Parsed PathStatistics := do
  let header ← header block
  if contains descriptionDiffPaths header then return statistics
  else
    let matched ← Outcome.fold (readMarker plannedPaths (.fromUnifiedDiff block)) (header.splitOn 10)
      (statistics, false)
    requireMatch plannedPaths block matched

/-- Whether a block starts at an index: a header at the start of a line. -/
def startsBlock (output : Bytes) (index : Nat) : Parsed Bool :=
  if (output.drop index).take diffHeader.length ≠ diffHeader then .ok false
  else if index = 0 then .ok true
  else do
    let before ← Outcome.minus index 1
    let byte ← Outcome.entry output before
    return byte = 10

def windowCount (output : Bytes) : Nat := output.length + 1 - diffHeader.length

def blockStarts (output : Bytes) : Parsed (List Nat) := do
  let starts ← Outcome.collect (startsBlock output) (List.range (windowCount output))
  return ((List.range (windowCount output)).zip starts).filterMap fun (index, starts) =>
    if starts then some index else none

/-- Each block's start, with the next block's start or the end of the output. -/
def blockRanges (output : Bytes) (starts : List Nat) : List (Nat × Nat) :=
  starts.zip (starts.tail ++ [output.length])

def parse (output : Bytes) : Parsed PathStatistics := do
  let starts ← blockStarts output
  if starts = [] then
    if output = [] then return fun _ => none
    else .error (invalidDiff "jj returned text outside a Git diff block")
  else
    Outcome.fold (fun statistics (start, stop) => do
      parseBlock plannedPaths (← Outcome.slice output start stop) statistics) (blockRanges output starts)
        fun _ => none

/-! ## Reading a block -/

def Readable (line : Bytes) : Prop := Silent line ∨ ∃ path, Names line path

variable {plannedPaths : List RepoPath} {counted : DiffStatistics} {matched : PathStatistics × Bool}

theorem readMarker_readable {line : Bytes} (readable : Readable line) :
    ∃ matched', readMarker plannedPaths counted matched line = .ok matched' := by
  unfold readMarker
  rcases readable with silent | ⟨path, names⟩
  · exact ⟨matched, by rw [silent.read]; rfl⟩
  · rw [names.read, Outcome.ok_bind]
    dsimp only
    split
    · exact ⟨_, rfl⟩
    · exact ⟨_, rfl⟩

theorem readMarker_lone {line : Bytes} (lone : LoneQuote line) :
    readMarker plannedPaths counted matched line = .panicked := by
  unfold readMarker
  rw [lone.read]
  rfl

theorem readMarker_cases (line : Bytes) : Readable line ∨ LoneQuote line ∨
    ∃ reason, readMarker plannedPaths counted matched line = .error reason := by
  rcases pathFromMarkerLine_cases line with lone | silent | names | ⟨reason, refused⟩
  · exact .inr (.inl lone)
  · exact .inl (.inl silent)
  · exact .inl (.inr names)
  · refine .inr (.inr ⟨reason, ?_⟩)
    unfold readMarker
    rw [refused]
    rfl

theorem returns_readMarkers (lines : List Bytes) :
    (Outcome.fold (readMarker plannedPaths counted) lines matched).Returns ↔
      ¬ Outcome.StopsAt Readable LoneQuote lines :=
  Outcome.returns_fold (fun _ _ _ => readMarker_readable) (fun _ _ _ => readMarker_lone)
    fun line _ _ => readMarker_cases line

/-- The lines of a block before its first hunk. -/
def headerLines (block : Bytes) : List Bytes := (block.take (headerEnd block)).splitOn 10

def firstLine (block : Bytes) : Bytes := block.take (firstLineEnd block)

theorem headerEnd_le (block : Bytes) : headerEnd block ≤ block.length := by
  unfold headerEnd
  split
  · next newline found =>
    have inside := (List.findIdx?_eq_some_iff_findIdx_eq.mp found).1
    simp only [windows, List.length_map, List.length_range] at inside
    omega
  · exact Nat.le_refl _

theorem header_eq (block : Bytes) : header block = .ok (block.take (headerEnd block)) :=
  Outcome.slice_of_le (Nat.zero_le _) (headerEnd_le block)

theorem firstLineEnd_le (block : Bytes) : firstLineEnd block ≤ block.length := by
  unfold firstLineEnd
  cases found : block.findIdx? (· = 10) with
  | none => exact Nat.le_refl _
  | some newline => exact Nat.le_of_lt (List.findIdx?_eq_some_iff_findIdx_eq.mp found).1

theorem matchModeOnlyHeader_eq (plannedPaths : List RepoPath) (block : Bytes) (statistics : PathStatistics) :
    ∃ statistics' matched, matchModeOnlyHeader plannedPaths block statistics = .ok (statistics', matched) ∧
      (matched = true ↔ ∃ path ∈ plannedPaths, ∃ quote, samePathHeader path quote = firstLine block) := by
  have headed : ∀ path, (samePathHeader path false = firstLine block ∨ samePathHeader path true = firstLine block) ↔
      ∃ quote, samePathHeader path quote = firstLine block := fun path =>
    (Bool.exists_bool (p := fun quote => samePathHeader path quote = firstLine block)).symm
  unfold matchModeOnlyHeader
  rw [Outcome.slice_of_le (Nat.zero_le _) (firstLineEnd_le block), Outcome.ok_bind, List.drop_zero]
  cases found : plannedPaths.find? fun path => samePathHeader path false = block.take (firstLineEnd block) ||
      samePathHeader path true = block.take (firstLineEnd block) with
  | none =>
    refine ⟨_, false, rfl, nofun, fun ⟨path, mem, held⟩ => ?_⟩
    have none := List.find?_eq_none.mp found path mem
    rw [Bool.or_eq_true, decide_eq_true_eq, decide_eq_true_eq] at none
    exact absurd ((headed path).mpr held) none
  | some path =>
    have held := List.find?_some found
    rw [Bool.or_eq_true, decide_eq_true_eq, decide_eq_true_eq] at held
    exact ⟨_, true, rfl, fun _ => ⟨path, List.mem_of_find?_eq_some found, (headed path).mp held⟩, fun _ => rfl⟩

/-- The loop over readable lines tells whether one names a planned path. -/
theorem readMarkers_matched {lines : List Bytes} (all : ∀ line ∈ lines, Readable line)
    (plannedPaths : List RepoPath) (counted : DiffStatistics) (matched : PathStatistics × Bool) :
    ∃ statistics matched', Outcome.fold (readMarker plannedPaths counted) lines matched = .ok (statistics, matched') ∧
      (matched' = true ↔ matched.2 = true ∨ ∃ line ∈ lines, ∃ path ∈ plannedPaths, Names line path) := by
  induction lines generalizing matched with
  | nil => exact ⟨matched.1, matched.2, rfl, by simp⟩
  | cons line lines ih =>
    obtain ⟨one, all⟩ := List.forall_mem_cons.mp all
    have step : ∃ matched', readMarker plannedPaths counted matched line = .ok matched' ∧
        (matched'.2 = true ↔ matched.2 = true ∨ ∃ path ∈ plannedPaths, Names line path) := by
      unfold readMarker
      rcases one with silent | ⟨path, names⟩
      · refine ⟨matched, by rw [silent.read]; rfl, .inl, ?_⟩
        rintro (done | ⟨path, -, names⟩)
        · exact done
        · cases silent.read.symm.trans names.read
      · have only : ∀ path', Names line path' → path' = path := fun path' names' => by
          cases names.read.symm.trans names'.read
          rfl
        rw [names.read, Outcome.ok_bind]
        dsimp only
        split
        · next planned => exact ⟨_, rfl, fun _ => .inr ⟨path, planned, names⟩, fun _ => rfl⟩
        · next absent =>
          refine ⟨_, rfl, .inl, ?_⟩
          rintro (done | ⟨path', planned, names'⟩)
          · exact done
          · exact absurd (only path' names' ▸ planned) absent
    obtain ⟨matched', run, first⟩ := step
    obtain ⟨statistics, matched'', rest, later⟩ := ih all matched'
    refine ⟨statistics, matched'', by rw [Outcome.fold, run]; exact rest, ?_⟩
    rw [later, first, or_assoc, List.exists_mem_cons_iff]

/-- The block of jj's description of the commit. -/
def IsDescription (block : Bytes) : Prop :=
  contains descriptionDiffPaths (block.take (headerEnd block)) = true

/-- A block that the plan accounts for. -/
def Accepted (plannedPaths : List RepoPath) (block : Bytes) : Prop :=
  IsDescription block ∨ (∀ line ∈ headerLines block, Readable line) ∧
    ((∃ line ∈ headerLines block, ∃ path ∈ plannedPaths, Names line path) ∨
      ∃ path ∈ plannedPaths, ∃ quote, samePathHeader path quote = firstLine block)

/-- A block whose first line that is not readable has a lone quote for a path. -/
def Stuck (block : Bytes) : Prop :=
  ¬ IsDescription block ∧ Outcome.StopsAt Readable LoneQuote (headerLines block)

variable {block : Bytes} {statistics : PathStatistics}

theorem parseBlock_description (description : IsDescription block) :
    parseBlock plannedPaths block statistics = .ok statistics := by
  unfold IsDescription at description
  unfold parseBlock
  rw [header_eq, Outcome.ok_bind, if_pos description]
  rfl

theorem parseBlock_change (change : ¬ IsDescription block) : parseBlock plannedPaths block statistics =
    Outcome.fold (readMarker plannedPaths (.fromUnifiedDiff block)) (headerLines block) (statistics, false) >>=
      requireMatch plannedPaths block := by
  unfold IsDescription at change
  unfold parseBlock
  rw [header_eq, Outcome.ok_bind, if_neg change]
  rfl

theorem requireMatch_cases (plannedPaths : List RepoPath) (block : Bytes) (matched : PathStatistics × Bool) :
    (∃ statistics, requireMatch plannedPaths block matched = .ok statistics ∧
      (matched.2 = true ∨ ∃ path ∈ plannedPaths, ∃ quote, samePathHeader path quote = firstLine block)) ∨
    (∃ reason, requireMatch plannedPaths block matched = .error reason) ∧ matched.2 = false ∧
      ¬ ∃ path ∈ plannedPaths, ∃ quote, samePathHeader path quote = firstLine block := by
  obtain ⟨statistics, found, run, iff⟩ := matchModeOnlyHeader_eq plannedPaths block matched.1
  unfold requireMatch
  cases known : matched.2 with
  | true => exact .inl ⟨matched.1, by simp [known], .inl rfl⟩
  | false =>
    rw [if_neg Bool.false_ne_true, run, Outcome.ok_bind]
    cases found with
    | true => exact .inl ⟨statistics, rfl, .inr (iff.mp rfl)⟩
    | false => exact .inr ⟨⟨_, rfl⟩, rfl, fun headed => Bool.false_ne_true (iff.mpr headed)⟩

theorem parseBlock_stuck (stuck : Stuck block) : parseBlock plannedPaths block statistics = .panicked := by
  have stops : ¬ (Outcome.fold (readMarker plannedPaths (.fromUnifiedDiff block)) (headerLines block)
      (statistics, false)).Returns := by
    rw [returns_readMarkers]
    exact not_not.mpr stuck.2
  rw [parseBlock_change stuck.1, not_not.mp stops]
  rfl

theorem parseBlock_accepted (accepted : Accepted plannedPaths block) :
    ∃ statistics', parseBlock plannedPaths block statistics = .ok statistics' := by
  by_cases description : IsDescription block
  · exact ⟨statistics, parseBlock_description description⟩
  · obtain ⟨all, known⟩ := accepted.resolve_left description
    obtain ⟨read, matched, run, iff⟩ := readMarkers_matched all plannedPaths (.fromUnifiedDiff block)
      (statistics, false)
    rw [parseBlock_change description, run, Outcome.ok_bind]
    obtain ⟨statistics', got, -⟩ | ⟨-, unmatched, unheaded⟩ := requireMatch_cases plannedPaths block
      (read, matched)
    · exact ⟨statistics', got⟩
    · rcases known with named | headed
      · rw [iff.mpr (.inr named)] at unmatched
        cases unmatched
      · exact absurd headed unheaded

theorem parseBlock_cases (block : Bytes) (statistics : PathStatistics) :
    Accepted plannedPaths block ∨ Stuck block ∨
      ∃ reason, parseBlock plannedPaths block statistics = .error reason := by
  by_cases description : IsDescription block
  · exact .inl (.inl description)
  · by_cases stops : Outcome.StopsAt Readable LoneQuote (headerLines block)
    · exact .inr (.inl ⟨description, stops⟩)
    · rw [parseBlock_change description]
      cases run : Outcome.fold (readMarker plannedPaths (.fromUnifiedDiff block)) (headerLines block)
          (statistics, false) with
      | panicked => exact absurd run ((returns_readMarkers _).mpr stops)
      | error reason => exact .inr (.inr ⟨reason, rfl⟩)
      | ok read =>
        have all := Outcome.good_of_fold (fun _ _ _ => readMarker_lone)
          (fun line _ _ => readMarker_cases line) run
        obtain ⟨_, _, run', iff⟩ := readMarkers_matched all plannedPaths (.fromUnifiedDiff block)
          (statistics, false)
        cases run.symm.trans run'
        rw [Outcome.ok_bind]
        obtain ⟨_, -, known⟩ | ⟨refused, -⟩ := requireMatch_cases plannedPaths block (_, _)
        · refine .inl (.inr ⟨all, known.imp (fun matched => ?_) id⟩)
          exact (iff.mp matched).resolve_left Bool.false_ne_true
        · exact .inr (.inr refused)

/-! ## Reading the output -/

/-- Where a block starts. -/
def IsStart (output : Bytes) (index : Nat) : Prop :=
  (output.drop index).take diffHeader.length = diffHeader ∧ (index = 0 ∨ output[index - 1]? = some 10)

instance (output : Bytes) (index : Nat) : Decidable (IsStart output index) :=
  inferInstanceAs (Decidable (_ ∧ _))

def starts (output : Bytes) : List Nat := (List.range (windowCount output)).filter (IsStart output ·)

theorem startsBlock_eq {output : Bytes} {index : Nat} (inside : index < windowCount output) :
    startsBlock output index = .ok (IsStart output index) := by
  have length : diffHeader.length = 11 := by decide
  have before : index - 1 < output.length := by
    rw [windowCount, length] at inside
    omega
  unfold startsBlock IsStart
  split
  · next other => simp [other]
  · next headed =>
    have headed := not_not.mp headed
    split
    · next first => simpa [first] using headed
    · next later =>
      rw [Outcome.minus_of_le (by omega), Outcome.ok_bind, Outcome.entry_of_lt before, Outcome.ok_bind]
      simp [headed, later, List.getElem?_eq_getElem before]

theorem blockStarts_eq (output : Bytes) : blockStarts output = .ok (starts output) := by
  have pairs : ∀ indices : List Nat, ((indices.zip (indices.map fun index => decide (IsStart output index))).filterMap
      fun (index, starts) => if starts then some index else none) = indices.filter (IsStart output ·) := by
    intro indices
    induction indices with
    | nil => rfl
    | cons index indices ih =>
      rw [List.map_cons, List.zip_cons_cons, List.filterMap_cons, List.filter_cons, ih]
      cases decide (IsStart output index) <;> rfl
  unfold blockStarts
  rw [Outcome.collect_eq_map fun index mem => startsBlock_eq (List.mem_range.mp mem), Outcome.ok_bind]
  exact congrArg Outcome.ok (pairs _)

theorem blockRanges_valid {output : Bytes} {range : Nat × Nat}
    (mem : range ∈ blockRanges output (starts output)) : range.1 ≤ range.2 ∧ range.2 ≤ output.length := by
  have ordered : (starts output).Pairwise (· < ·) := List.Pairwise.filter _ List.pairwise_lt_range
  have inside : ∀ start ∈ starts output, start ≤ output.length := fun start mem => by
    have below := List.mem_range.mp (List.mem_of_mem_filter mem)
    have length : diffHeader.length = 11 := by decide
    rw [windowCount, length] at below
    omega
  unfold blockRanges at mem
  generalize starts output = starts at ordered inside mem
  induction starts with
  | nil => cases mem
  | cons start rest ih =>
    obtain ⟨first, ordered⟩ := List.pairwise_cons.mp ordered
    obtain ⟨one, inside⟩ := List.forall_mem_cons.mp inside
    cases rest with
    | nil =>
      obtain rfl := List.mem_singleton.mp mem
      exact ⟨one, Nat.le_refl _⟩
    | cons next rest =>
      rcases List.mem_cons.mp mem with rfl | mem
      · exact ⟨Nat.le_of_lt (first next List.mem_cons_self), inside next List.mem_cons_self⟩
      · exact ih ordered inside mem

/-- The blocks that jj printed. -/
def blocks (output : Bytes) : List Bytes :=
  (blockRanges output (starts output)).map fun range => (output.take range.2).drop range.1

/-- The output panics the parser exactly where, after blocks that the plan accounts for, a block
with a lone quote for a path comes. -/
theorem returns_parse (plannedPaths : List RepoPath) (output : Bytes) :
    (parse plannedPaths output).Returns ↔
      ¬ Outcome.StopsAt (Accepted plannedPaths) Stuck (blocks output) := by
  unfold parse
  rw [blockStarts_eq, Outcome.ok_bind]
  split
  · next none =>
    refine ⟨fun _ => ?_, fun _ => ?_⟩
    · rw [blocks, blockRanges, none]
      rintro ⟨before, a, after, same, -⟩
      exact absurd same (by simp)
    · split <;> simp
  · rw [blocks, Outcome.stopsAt_map]
    have sliced : ∀ range ∈ blockRanges output (starts output), ∀ statistics,
        (do parseBlock plannedPaths (← Outcome.slice output range.1 range.2) statistics) =
          parseBlock plannedPaths ((output.take range.2).drop range.1) statistics := fun range mem statistics => by
      obtain ⟨le, inside⟩ := blockRanges_valid mem
      rw [Outcome.slice_of_le le inside, Outcome.ok_bind]
    refine Outcome.returns_fold (fun range mem statistics accepted => ?_) (fun range mem statistics stuck => ?_)
      fun range mem statistics => ?_
    · exact (parseBlock_accepted accepted).imp fun _ got => (sliced range mem statistics).trans got
    · exact (sliced range mem statistics).trans (parseBlock_stuck stuck)
    · rcases parseBlock_cases ((output.take range.2).drop range.1) statistics with
        accepted | stuck | ⟨reason, refused⟩
      · exact .inl accepted
      · exact .inr (.inl stuck)
      · exact .inr (.inr ⟨reason, (sliced range mem statistics).trans refused⟩)

end JjGitDiffParser

end ProgressiveReviewer.Parsers
