import ProgressiveReviewer.Hunks.Text

/-! The rows of a diff and the hunks of one file (`review-hunks/src/hunks.rs`, with
`DiffRow` of `review-repository/src/diff.rs`). -/

namespace ProgressiveReviewer.Hunks

open Library Library.Extent

/-- A lossless Unix repository-relative path. -/
abbrev RepoPath := Bytes

/-- A special condition in diff output. -/
inductive NoticeKind where
  | binary
  | conflict
  | unsupported
  deriving DecidableEq, Repr

/-- One parsed row in a unified diff. -/
inductive DiffRow where
  | fileHeader (oldPath newPath : Option RepoPath) (text : String)
  | metadata (text : String)
  | hunk (oldStart oldCount newStart newCount : Nat)
  | context (oldLine newLine : Nat) (text : String)
  | delete (oldLine : Nat) (text : String)
  | add (newLine : Nat) (text : String)
  | notice (kind : NoticeKind) (text : String)
  deriving DecidableEq, Repr

def DiffRow.isNotice : DiffRow → Bool
  | .notice _ _ => true
  | _ => false

/-- A row of a line. -/
def DiffRow.isContent : DiffRow → Bool
  | .context _ _ _ | .add _ _ | .delete _ _ => true
  | _ => false

/-- The changed lines of one hunk, as zero-based line ranges on each side.
Unchanged lines between the first and the last change belong to the span;
the context around it does not. -/
structure HunkSpan where
  old : Range
  new : Range
  deriving DecidableEq, Repr

/-- One hunk of the open diff, from the reviewed version to the current file. -/
structure OpenHunk where
  span : HunkSpan
  /-- The hunk rewrites lines the reviewer already reviewed. -/
  sinceReview : Bool
  /-- How many lines the hunk adds or removes. -/
  changedLines : Nat
  deriving DecidableEq, Repr

/-- A change from the base that the reviewed version holds and the current
file still matches. -/
structure ReviewedHunk where
  /-- The base on the old side, the current file on the new side. -/
  span : HunkSpan
  rows : List DiffRow
  deriving DecidableEq, Repr

/-- Which hunks of one file are open and which are reviewed. -/
structure FileHunks where
  «open» : List OpenHunk
  reviewed : List ReviewedHunk
  deriving DecidableEq, Repr

/-- How many of a file's changed lines are reviewed. -/
structure LineCount where
  reviewed : Nat
  total : Nat
  deriving DecidableEq, Repr

/-- The reviewed share in whole percent: rounded down, but never 0% once
a line is reviewed nor 100% while one is open. -/
def LineCount.percent (count : LineCount) : Nat :=
  let percent := count.reviewed * 100 / max count.total 1
  if count.reviewed = 0 ∨ count.total ≤ count.reviewed then percent else min (max percent 1) 99

/-- A position on both sides of a diff. -/
structure Position where
  old : Nat
  new : Nat
  deriving DecidableEq, Repr

/-- The walk through one hunk's rows. -/
structure HunkWalk where
  «at» : Position
  first : Option Position
  last : Option Position
  changed : Nat
  deriving DecidableEq, Repr

namespace HunkWalk

def start : DiffRow → Option HunkWalk
  | .hunk oldStart oldCount newStart newCount =>
    -- a side without lines names the line before the hunk
    let firstLine := fun start count => if count = 0 then start else start - 1
    some ⟨⟨firstLine oldStart oldCount, firstLine newStart newCount⟩, none, none, 0⟩
  | _ => none

def step (walk : HunkWalk) (old new : Nat) : HunkWalk :=
  let after : Position := ⟨walk.at.old + old, walk.at.new + new⟩
  if old + new = 1 then
    ⟨after, some (walk.first.getD walk.at), some after, walk.changed + 1⟩
  else { walk with «at» := after }

def push (walk : HunkWalk) : DiffRow → HunkWalk
  | .context _ _ _ => walk.step 1 1
  | .delete _ _ => walk.step 1 0
  | .add _ _ => walk.step 0 1
  | _ => walk

def finish (walk : HunkWalk) : Option OpenHunk := do
  let first ← walk.first
  let last ← walk.last
  some ⟨⟨⟨first.old, last.old⟩, ⟨first.new, last.new⟩⟩, false, walk.changed⟩

end HunkWalk

def openHunksFrom : Option HunkWalk → List DiffRow → List OpenHunk
  | walk, [] => (walk.bind HunkWalk.finish).toList
  | walk, row :: rows =>
    match HunkWalk.start row with
    | some started => (walk.bind HunkWalk.finish).toList ++ openHunksFrom (some started) rows
    | none => openHunksFrom (walk.map fun walk => walk.push row) rows

/-- The hunks of a parsed diff, none of them rewriting reviewed lines yet. A
diff with notices (binary, conflicted or unparsed content) has no hunks to
review one by one. -/
def openHunks (rows : List DiffRow) : List OpenHunk :=
  if rows.any DiffRow.isNotice then [] else openHunksFrom none rows

namespace FileHunks

/-- The hunks of a file without reviewed lines: every hunk of its diff is open. -/
def unreviewed (rows : List DiffRow) : FileHunks := ⟨openHunks rows, []⟩

/-- Whether the file has no hunks to mark line by line. -/
def isEmpty (hunks : FileHunks) : Bool := hunks.open.isEmpty && hunks.reviewed.isEmpty

/-- How many changed lines are reviewed, once some are. -/
def count (hunks : FileHunks) : Option LineCount :=
  let reviewed := (hunks.reviewed.flatMap (·.rows)).countP fun
    | .add _ _ | .delete _ _ => true
    | _ => false
  let total := (hunks.open.map (·.changedLines)).sum
  if 0 < reviewed then some ⟨reviewed, reviewed + total⟩ else none

end FileHunks

/-! Decoding bytes that need not be UTF-8: each longest start of a character that
breaks off becomes one replacement character. -/

def replacement : Char := Char.ofNat 0xFFFD

/-- For the first byte of a longer character: the bounds of its second byte, how
many bytes follow that one, and the bits the first byte holds. -/
def utf8Lead (byte : UInt8) : Option (UInt8 × UInt8 × Nat × Nat) :=
  let bits := byte.toNat
  if 0xC2 ≤ byte ∧ byte ≤ 0xDF then some (0x80, 0xBF, 0, bits - 0xC0)
  else if byte = 0xE0 then some (0xA0, 0xBF, 1, 0)
  else if byte = 0xED then some (0x80, 0x9F, 1, 0xD)
  else if 0xE1 ≤ byte ∧ byte ≤ 0xEF then some (0x80, 0xBF, 1, bits - 0xE0)
  else if byte = 0xF0 then some (0x90, 0xBF, 2, 0)
  else if byte = 0xF4 then some (0x80, 0x8F, 2, 4)
  else if 0xF1 ≤ byte ∧ byte ≤ 0xF3 then some (0x80, 0xBF, 2, bits - 0xF0)
  else none

/-- Reads on after the first `bits` of a character that still lacks `more + 1` bytes,
the next one of which must lie in the bounds. -/
def utf8Rest : (low high : UInt8) → (more bits : Nat) → Bytes → Char × Bytes
  | low, high, more, bits, byte :: bytes =>
    if low ≤ byte ∧ byte ≤ high then
      let bits := bits * 64 + (byte.toNat - 0x80)
      match more with
      | 0 => (Char.ofNat bits, bytes)
      | more + 1 => utf8Rest 0x80 0xBF more bits bytes
    else (replacement, byte :: bytes)
  | _, _, _, _, [] => (replacement, [])

/-- The characters of at most `fuel` bytes; each character uses up at least one. -/
def utf8Chars : (fuel : Nat) → Bytes → List Char
  | 0, _ => []
  | _, [] => []
  | fuel + 1, byte :: bytes =>
    if byte < 0x80 then Char.ofNat byte.toNat :: utf8Chars fuel bytes
    else match utf8Lead byte with
      | none => replacement :: utf8Chars fuel bytes
      | some (low, high, more, bits) =>
        let (char, rest) := utf8Rest low high more bits bytes
        char :: utf8Chars fuel rest

def fromUtf8Lossy (bytes : Bytes) : String := String.ofList (utf8Chars bytes.length bytes)

theorem utf8Rest_length (low high : UInt8) (more bits : Nat) (bytes : Bytes) :
    (utf8Rest low high more bits bytes).2.length ≤ bytes.length := by
  fun_induction utf8Rest low high more bits bytes with
  | case1 => simp
  | case2 low high byte bytes bits inside bits' more ih =>
    rw [List.length_cons]
    omega
  | case3 => simp
  | case4 => simp

/-- The fuel of `fromUtf8Lossy` is enough: more of it decodes nothing more. -/
theorem utf8Chars_fuel (bytes : Bytes) (fuel : Nat) (enough : bytes.length ≤ fuel) :
    utf8Chars fuel bytes = utf8Chars bytes.length bytes := by
  induction fuel using Nat.strongRecOn generalizing bytes with
  | ind fuel ih =>
    cases bytes with
    | nil => cases fuel <;> rfl
    | cons byte bytes =>
      obtain ⟨fuel, rfl⟩ : ∃ n, fuel = n + 1 := ⟨fuel - 1, by simp at enough; omega⟩
      have short : bytes.length ≤ fuel := by simpa using enough
      have rest : ∀ tail : Bytes, tail.length ≤ bytes.length →
          utf8Chars fuel tail = utf8Chars bytes.length tail := by
        intro tail le
        rw [ih fuel (by omega) tail (by omega)]
        by_cases same : bytes.length = fuel
        · rw [same, ih fuel (by omega) tail (by omega)]
        · rw [ih bytes.length (by omega) tail le]
      simp only [List.length_cons, utf8Chars]
      split_ifs
      · rw [rest bytes (Nat.le_refl _)]
      · split
        · rw [rest bytes (Nat.le_refl _)]
        · rw [rest _ (utf8Rest_length _ _ _ _ _)]

example : fromUtf8Lossy [0x61, 0xC3, 0xA9, 0xE2, 0x82, 0x62, 0xFF] = "aé\uFFFDb\uFFFD" := by decide

end ProgressiveReviewer.Hunks
