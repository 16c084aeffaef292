import ProgressiveReviewer.Hunks.Text

/-! Git-style unified diffs: writing one between two versions, and recovering the old
version from a diff and the new one (`review-hunks/src/patch.rs`). -/

namespace ProgressiveReviewer.Hunks

open Library Library.Extent

/-- The UTF-8 bytes of a text. -/
def bytesOf (text : String) : Bytes := text.toUTF8.data.toList

theorem bytesOf_append (a b : String) : bytesOf (a ++ b) = bytesOf a ++ bytesOf b := by
  simp [bytesOf]

/-- A hunk header range: Git names the line before an empty range. -/
def headerRange (start count : Nat) : String :=
  if count = 0 then toString start ++ ",0"
  else if count = 1 then toString (start + 1)
  else toString (start + 1) ++ "," ++ toString count

def noFinalNewline : Bytes := bytesOf "\n\\ No newline at end of file\n"

def diffLines (marker : UInt8) (lines : Lines) (range : Range) : Bytes :=
  ((lines.get range).getD []).flatMap fun line =>
    marker :: line ++ if line.getLast?.any isNewline then [] else noFinalNewline

/-- The lines of one hunk from `position` on the before side, which ends at `stop`. -/
def diffChanges (before after : Lines) (stop : Nat) : Nat → List Change → Bytes
  | position, [] => diffLines 32 before ⟨position, stop⟩
  | position, change :: changes =>
    diffLines 32 before ⟨position, change.before.start⟩ ++
      diffLines 45 before change.before ++
      diffLines 43 after change.after ++
      diffChanges before after stop change.before.stop changes

def diffHunk (before after : Lines) (group : List Change) : Bytes :=
  match group.head?, group.getLast? with
  | some first, some last =>
    let start := first.before.start - context
    let stop := min (last.before.stop + context) before.length
    let afterStart := first.after.start - (first.before.start - start)
    let afterStop := last.after.stop + (stop - last.before.stop)
    bytesOf ("@@ -" ++ headerRange start (stop - start) ++ " +" ++
        headerRange afterStart (afterStop - afterStart) ++ " @@\n") ++
      diffChanges before after stop start group
  | _, _ => []

/-- The Git-style unified diff from `before` to `after` for one path, or no
bytes when the versions are equal. -/
def unifiedDiff (d : Differ) (path : String) (before after : Bytes) : Bytes :=
  let changes := d.changes before after
  if changes = [] then []
  else
    bytesOf ("diff --git a/" ++ path ++ " b/" ++ path ++ "\n--- a/" ++ path ++ "\n+++ b/" ++ path ++
        "\n") ++
      (hunkGroups changes).flatMap (diffHunk (Lines.new before) (Lines.new after))

/-- What stands before and after the first `pattern`. -/
def splitOnce (pattern : List Char) : List Char → Option (List Char × List Char)
  | [] => if pattern = [] then some ([], []) else none
  | char :: chars =>
    if pattern.isPrefixOf (char :: chars) then some ([], (char :: chars).drop pattern.length)
    else (splitOnce pattern chars).map fun parts => (char :: parts.1, parts.2)

/-- A 32-bit number as Rust parses one: digits after an optional plus sign. -/
def parseU32 (chars : List Char) : Option Nat :=
  let digits := match chars with
    | '+' :: digits => digits
    | digits => digits
  if digits = [] ∨ ¬ digits.all Char.isDigit then none
  else
    let number := digits.foldl (fun number digit => number * 10 + (digit.toNat - 48)) 0
    if number < 2 ^ 32 then some number else none

/-- The zero-based first new-side line of a hunk header. -/
def hunkNewStart (line : Bytes) : Option Nat := do
  let header := bytesOf "@@ -"
  let rest ← if header.isPrefixOf line then some (line.drop header.length) else none
  let text ← String.fromUTF8? ⟨rest.toArray⟩
  let (_, rest) ← splitOnce [' ', '+'] text.toList
  let (range, _) ← splitOnce [' ', '@', '@'] rest
  let (start, count) ← match splitOnce [','] range with
    | some (start, count) => do some (← parseU32 start, ← parseU32 count)
    | none => do some (← parseU32 range, 1)
  if count = 0 then some start else if start = 0 then none else some (start - 1)

/-- The old version while it is rebuilt: how far the new version was read, and whether
the last line was a removed one. -/
structure ReversePatch where
  before : Bytes
  position : Nat
  removedLast : Bool

namespace ReversePatch

variable (patch : ReversePatch) (after : Lines)

def copyUntil (line : Nat) : Option ReversePatch := do
  let kept ← after.get ⟨patch.position, line⟩
  some { patch with before := patch.before ++ kept.flatten, position := line }

def push (line : Bytes) : Option ReversePatch :=
  match line with
  | [] => some patch
  | marker :: text =>
    if marker = 32 ∨ marker = 43 then do
      let current ← after.line patch.position
      let bare := if current.getLast?.any isNewline then current.dropLast else current
      if bare = text then
        some {
          before := if marker = 32 then patch.before ++ current else patch.before
          position := patch.position + 1
          removedLast := false }
      else none
    else if marker = 45 then
      some { patch with before := patch.before ++ text ++ [10], removedLast := true }
    else if marker = 92 then
      some (if patch.removedLast then { patch with before := patch.before.dropLast } else patch)
    else none

/-- Read the lines of a diff; those before the first hunk header say nothing. -/
def read : Bool → ReversePatch → List Bytes → Option ReversePatch
  | _, patch, [] => some patch
  | inHunk, patch, line :: lines =>
    match hunkNewStart line with
    | some newStart => do
      let patch ← patch.copyUntil after newStart
      read true patch lines
    | none =>
      if inHunk then do
        let patch ← patch.push after line
        read true patch lines
      else read false patch lines

end ReversePatch

/-- The old version of a file, rebuilt from its Git-style unified diff and its
new version, or `none` when the diff does not describe `after`. -/
def reverseApply (diff after : Bytes) : Option Bytes := do
  let lines := Lines.new after
  let patch ← ReversePatch.read lines false ⟨[], 0, false⟩ (diff.splitOnP isNewline)
  let patch ← patch.copyUntil lines lines.length
  some patch.before

example : (unifiedDiff trimmedDiffer "f" (bytesOf "a\nb\nc") (bytesOf "a\nB\nc\n")) =
    bytesOf ("diff --git a/f b/f\n--- a/f\n+++ b/f\n@@ -1,3 +1,3 @@\n a\n-b\n-c\n" ++
      "\\ No newline at end of file\n+B\n+c\n") := by decide

/-- A diff that says nothing leaves the version as it is. -/
theorem reverseApply_nil (after : Bytes) : reverseApply [] after = some after := by
  have whole : (Lines.new after).get ⟨0, (Lines.new after).length⟩ = some (Lines.new after) := by
    rw [Lines.get_eq_some (Nat.zero_le _) (Nat.le_refl _)]
    simp [cut]
  have header : hunkNewStart [] = none := rfl
  simp [reverseApply, ReversePatch.read, ReversePatch.copyUntil, header, whole]

theorem unifiedDiff_eq_nil {d : Differ} (valid : d.Valid) (quiet : d.Quiet) {path : String}
    {before after : Bytes} : unifiedDiff d path before after = [] ↔ before = after := by
  constructor
  · intro empty
    by_contra differ
    have changes : d.changes before after ≠ [] := fun nil => differ (valid.eq_of_nil nil)
    have header : bytesOf ("diff --git a/" ++ path ++ " b/" ++ path ++ "\n--- a/" ++ path ++
        "\n+++ b/" ++ path ++ "\n") = [] := by
      simp only [unifiedDiff, if_neg changes, List.append_eq_nil_iff] at empty
      exact empty.1
    simp only [String.append_assoc, bytesOf_append, List.append_eq_nil_iff] at header
    exact absurd header.1 (by decide)
  · rintro rfl
    rw [unifiedDiff, quiet, if_pos rfl]

end ProgressiveReviewer.Hunks
