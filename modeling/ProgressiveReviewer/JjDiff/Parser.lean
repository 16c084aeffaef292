import ProgressiveReviewer.JjDiff.GitPatch

/-! The line counts of the files in a Git-style diff
(`review-repository/src/repository/jj/git_diff.rs`). -/

namespace ProgressiveReviewer.JjDiff

open Library Hunks Marks

def descriptionDiffPaths : Bytes :=
  bytesOf "--- JJ-COMMIT-DESCRIPTION\n+++ JJ-COMMIT-DESCRIPTION\n"

def diffHeader : Bytes := bytesOf "diff --git "

/-- How header lines name a path, and what leads the path there. -/
def pathMarkers : List (Bytes × Option Bytes) :=
  [(bytesOf "--- ", some (bytesOf "a/")), (bytesOf "+++ ", some (bytesOf "b/")),
    (bytesOf "rename from ", none), (bytesOf "rename to ", none),
    (bytesOf "copy from ", none), (bytesOf "copy to ", none)]

def invalidPath : String := "jj returned an invalid escaped Git path"

/-! Quoted paths. -/

def isOctal (byte : UInt8) : Bool := 48 ≤ byte && byte ≤ 55

/-- The byte of an escape in octal digits, of which the first is read, and what follows. -/
def decodeOctalEscape (first : UInt8) : Bytes → Except String (UInt8 × Bytes)
  | second :: third :: rest =>
    if isOctal second ∧ isOctal third then
      let value := (first.toNat - 48) * 64 + (second.toNat - 48) * 8 + (third.toNat - 48)
      if value < 256 then .ok (UInt8.ofNat value, rest) else .error invalidPath
    else .error invalidPath
  | _ => .error invalidPath

/-- The byte that a letter or a mark stands for after a backslash. -/
def namedEscape : UInt8 → Option UInt8
  | 92 => some 92
  | 34 => some 34
  | 97 => some 7
  | 98 => some 8
  | 116 => some 9
  | 110 => some 10
  | 118 => some 11
  | 102 => some 12
  | 114 => some 13
  | _ => none

/-- The byte of an escape after its backslash, and what follows. -/
def decodeEscape : Bytes → Except String (UInt8 × Bytes)
  | [] => .error invalidPath
  | escaped :: rest =>
    match namedEscape escaped with
    | some byte => .ok (byte, rest)
    | none => if isOctal escaped then decodeOctalEscape escaped rest else .error invalidPath

theorem decodeOctalEscape_shorter {first byte : UInt8} {bytes rest : Bytes}
    (decoded : decodeOctalEscape first bytes = .ok (byte, rest)) : rest.length < bytes.length := by
  unfold decodeOctalEscape at decoded
  split at decoded
  · dsimp only at decoded
    split_ifs at decoded
    cases decoded
    simp only [List.length_cons]
    omega
  · cases decoded

theorem decodeEscape_shorter {bytes rest : Bytes} {byte : UInt8}
    (decoded : decodeEscape bytes = .ok (byte, rest)) : rest.length < bytes.length := by
  cases bytes with
  | nil => cases decoded
  | cons escaped more =>
    rw [decodeEscape] at decoded
    cases own : namedEscape escaped with
    | some named =>
      rw [own] at decoded
      cases decoded
      exact Nat.lt_succ_self _
    | none =>
      rw [own] at decoded
      split_ifs at decoded
      exact (decodeOctalEscape_shorter decoded).trans (Nat.lt_succ_self _)

/-- The bytes between the quotes. -/
def decodeBytes (bytes : Bytes) : Except String Bytes :=
  match bytes with
  | [] => .ok []
  | byte :: rest =>
    if byte = 92 then
      match _decoded : decodeEscape rest with
      | .ok (own, later) => (own :: ·) <$> decodeBytes later
      | .error error => .error error
    else (byte :: ·) <$> decodeBytes rest
termination_by bytes.length
decreasing_by
  · have := decodeEscape_shorter ‹_›
    simp only [List.length_cons]
    omega
  · exact Nat.lt_succ_self _

/-- A lone quote, at which the source panics, is an error here too. -/
def decodePath (encoded : Bytes) : Except String Bytes :=
  if encoded.head? ≠ some 34 then .ok encoded
  else if encoded.getLast? ≠ some 34 ∨ encoded.length < 2 then .error invalidPath
  else decodeBytes (encoded.drop 1).dropLast

/-! Blocks. -/

/-- The path that a header line names, if it names one. -/
def pathFromMarkerLine (line : Bytes) : List (Bytes × Option Bytes) → Except String (Option Bytes)
  | [] => .ok none
  | (marker, lead) :: markers =>
    if marker.isPrefixOf line then do
      let encoded := line.drop marker.length
      if encoded = bytesOf "/dev/null" then return none
      let decoded ← decodePath encoded
      match lead with
      | some lead =>
        ensure (lead.isPrefixOf decoded) "jj returned an invalid Git path marker"
        return some (decoded.drop lead.length)
      | none => return some decoded
    else pathFromMarkerLine line markers

abbrev PathStatistics := RepoPath → Option DiffStatistics

def samePathHeader (path : RepoPath) (quotePaths : Bool) : Bytes :=
  diffHeader ++ ((GitPath.new (bytesOf "a/") path).withQuoting quotePaths).bytes ++ [32] ++
    ((GitPath.new (bytesOf "b/") path).withQuoting quotePaths).bytes

/-- The planned path that both sides of a block's first line name. -/
def modeOnlyPath (planned : List RepoPath) (block : Bytes) : Option RepoPath :=
  let header := block.takeWhile fun byte => !isNewline byte
  planned.find? fun path => samePathHeader path false = header ∨ samePathHeader path true = header

/-- The lines of a block before its first hunk. -/
def header (block : Bytes) : Bytes := headTo 10 (bytesOf "@@ ") block

/-- Take the counts of a block for each planned path that a header line names. -/
def takeLine (planned : List RepoPath) (statistics : DiffStatistics)
    (taken : PathStatistics × Bool) (line : Bytes) : Except String (PathStatistics × Bool) := do
  match ← pathFromMarkerLine line pathMarkers with
  | some path =>
    if path ∈ planned then return (Function.update taken.1 path (some statistics), true)
    return taken
  | none => return taken

def parseBlock (planned : List RepoPath) (taken : PathStatistics) (block : Bytes) :
    Except String PathStatistics := do
  if descriptionDiffPaths <:+: header block then return taken
  let (taken, matched) ← ((header block).splitOnP isNewline).foldlM
    (takeLine planned (.fromUnifiedDiff block)) (taken, false)
  if matched then return taken
  match modeOnlyPath planned block with
  | some path => return Function.update taken path (some .zero)
  | none => throw "jj returned a path outside the comparison plan"

def parse (planned : List RepoPath) (output : Bytes) : Except String PathStatistics :=
  let starts := lineStarts 10 diffHeader output
  if starts = [] then
    if output = [] then .ok fun _ => none
    else .error "jj returned text outside a Git diff block"
  else (slicesAt output starts).foldlM (parseBlock planned) fun _ => none

end ProgressiveReviewer.JjDiff

/-! A path reads back from the bytes that a header writes for it. -/

namespace ProgressiveReviewer.JjDiff

open Library Hunks Marks

theorem decodeOctalEscape_append {first byte : UInt8} {bytes later : Bytes}
    (decoded : decodeOctalEscape first bytes = .ok (byte, later)) (rest : Bytes) :
    decodeOctalEscape first (bytes ++ rest) = .ok (byte, later ++ rest) := by
  unfold decodeOctalEscape at decoded
  split at decoded
  · next second third more =>
    dsimp only at decoded
    rw [List.cons_append, List.cons_append, decodeOctalEscape]
    split_ifs at decoded with octal small
    cases decoded
    simp only [if_pos octal, if_pos small]
  · cases decoded

theorem decodeEscape_append {byte : UInt8} {bytes later : Bytes}
    (decoded : decodeEscape bytes = .ok (byte, later)) (rest : Bytes) :
    decodeEscape (bytes ++ rest) = .ok (byte, later ++ rest) := by
  cases bytes with
  | nil => cases decoded
  | cons escaped more =>
    rw [List.cons_append]
    rw [decodeEscape] at decoded ⊢
    cases own : namedEscape escaped with
    | some named =>
      rw [own] at decoded
      cases decoded
      rfl
    | none =>
      rw [own] at decoded
      dsimp only at decoded ⊢
      split_ifs at decoded ⊢
      exact decodeOctalEscape_append decoded rest

/-- A byte of a quoted path is itself or an escape of it. -/
theorem escape_cases (byte : UInt8) : (GitPath.escape byte = [byte] ∧ byte ≠ 92) ∨
    ∃ tail, GitPath.escape byte = 92 :: tail ∧ decodeEscape tail = .ok (byte, []) := by
  have all : ∀ n < 256, (GitPath.escape (UInt8.ofNat n) = [UInt8.ofNat n] ∧ UInt8.ofNat n ≠ 92) ∨
      GitPath.escape (UInt8.ofNat n) = 92 :: (GitPath.escape (UInt8.ofNat n)).tail ∧
        decodeEscape (GitPath.escape (UInt8.ofNat n)).tail = .ok (UInt8.ofNat n, []) := by
    decide +kernel
  have own := all byte.toNat byte.toNat_lt
  rw [UInt8.ofNat_toNat] at own
  exact own.imp_right fun ⟨escaped, decoded⟩ => ⟨_, escaped, decoded⟩

theorem decodeBytes_escape (byte : UInt8) (rest : Bytes) :
    decodeBytes (GitPath.escape byte ++ rest) = (byte :: ·) <$> decodeBytes rest := by
  rcases escape_cases byte with ⟨own, plain⟩ | ⟨tail, escaped, decoded⟩
  · rw [own, List.singleton_append, decodeBytes, if_neg plain]
  · have later := decodeEscape_append decoded rest
    rw [escaped, List.cons_append, decodeBytes, if_pos rfl]
    split
    · next own more same =>
      cases later.symm.trans same
      rfl
    · next error same => cases later.symm.trans same

theorem decodeBytes_plain {lead : Bytes} (plain : 92 ∉ lead) (rest : Bytes) :
    decodeBytes (lead ++ rest) = (lead ++ ·) <$> decodeBytes rest := by
  induction lead with
  | nil =>
    rw [List.nil_append]
    cases decodeBytes rest <;> rfl
  | cons byte lead ih =>
    obtain ⟨own, later⟩ := not_or.mp (mt List.mem_cons.mpr plain)
    rw [List.cons_append, decodeBytes, if_neg (Ne.symm own), ih later]
    cases decodeBytes rest <;> rfl

theorem decodeBytes_flatMap_escape (path : Bytes) :
    decodeBytes (path.flatMap GitPath.escape) = .ok path := by
  induction path with
  | nil => rw [List.flatMap_nil, decodeBytes]
  | cons byte path ih =>
    rw [List.flatMap_cons, decodeBytes_escape, ih]
    rfl

/-- A path in quotes, whatever its bytes. -/
theorem decodePath_quoted {lead : Bytes} (plain : 92 ∉ lead) (path : RepoPath) :
    decodePath ((GitPath.new lead path).withQuoting true).bytes = .ok (lead ++ path) := by
  have bytes : ((GitPath.new lead path).withQuoting true).bytes =
      34 :: (lead ++ path.flatMap GitPath.escape) ++ [34] := by
    simp [GitPath.bytes, GitPath.withQuoting, GitPath.new]
  have inside : ((34 :: (lead ++ path.flatMap GitPath.escape) ++ [34]).drop 1).dropLast =
      lead ++ path.flatMap GitPath.escape := by
    rw [List.cons_append, List.drop_succ_cons, List.drop_zero, List.dropLast_concat]
  rw [bytes, decodePath, inside, decodeBytes_plain plain, decodeBytes_flatMap_escape, if_neg,
    if_neg]
  · rfl
  · rintro (differs | short)
    · exact differs List.getLast?_concat
    · simp only [List.length_append, List.length_cons] at short
      omega
  · exact not_not.mpr rfl

/-- What the writer appends for a path reads back as the path. -/
theorem decodePath_bytes {lead : Bytes} (plain : ∀ byte ∈ lead, GitPath.plain byte = true)
    (path : RepoPath) : decodePath (GitPath.new lead path).bytes = .ok (lead ++ path) := by
  by_cases quiet : path.all GitPath.plain = true
  · have bytes : (GitPath.new lead path).bytes = lead ++ path := by
      simp [GitPath.bytes, GitPath.new, quiet]
    have unquoted : (lead ++ path).head? ≠ some 34 := fun quote => by
      have own : GitPath.plain 34 = true := by
        rcases List.mem_append.mp (List.mem_of_head? quote) with mem | mem
        · exact plain 34 mem
        · exact List.all_eq_true.mp quiet 34 mem
      exact absurd own (by decide)
    rw [bytes, decodePath, if_pos unquoted]
  · have quoted : GitPath.new lead path = (GitPath.new lead path).withQuoting true := by
      simp [GitPath.new, GitPath.withQuoting, quiet]
    rw [quoted]
    exact decodePath_quoted (fun mem => absurd (plain 92 mem) (by decide)) path

/-- Escapes tell paths apart. -/
theorem flatMap_escape_injective {first second : RepoPath}
    (same : first.flatMap GitPath.escape = second.flatMap GitPath.escape) : first = second := by
  have read := decodeBytes_flatMap_escape first
  rw [same, decodeBytes_flatMap_escape] at read
  exact (Except.ok.inj read).symm

/-- The bytes of a path keep to one line. -/
theorem newline_not_mem_bytes {lead : Bytes} (clean : 10 ∉ lead) (path : RepoPath) :
    10 ∉ (GitPath.new lead path).bytes := by
  have escaped : ∀ n < 256, (10 : UInt8) ∉ GitPath.escape (UInt8.ofNat n) := by decide +kernel
  unfold GitPath.bytes
  split_ifs with quote
  · intro mem
    simp only [GitPath.new, List.mem_append, List.mem_singleton, List.mem_flatMap] at mem
    rcases mem with ((quoted | led) | ⟨byte, -, held⟩) | quoted
    · exact absurd quoted (by decide)
    · exact clean led
    · rw [← UInt8.ofNat_toNat (x := byte)] at held
      exact escaped _ byte.toNat_lt held
    · exact absurd quoted (by decide)
  · intro mem
    rcases List.mem_append.mp mem with led | held
    · exact clean led
    · have quiet : path.all GitPath.plain = true := by simpa [GitPath.new] using quote
      exact absurd (List.all_eq_true.mp quiet 10 held) (by decide)

end ProgressiveReviewer.JjDiff
