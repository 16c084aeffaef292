import Mathlib.Data.Finset.Sort
import Mathlib.Data.String.Basic
import Mathlib.Logic.Function.Basic
import ProgressiveReviewer.Library.Fields
import ProgressiveReviewer.Marks.Snapshot

/-! How a Git repository compares a review with its stored baselines
(`review-repository/src/repository/git.rs`, `git/records.rs`). What `git` answers is a
parameter. -/

namespace ProgressiveReviewer.Marks

open Library Hunks

/-- One record of `git diff --numstat`. -/
structure NumstatRecord where
  /-- A binary file has no count. -/
  added : Option Nat
  removed : Option Nat
  renamedFrom : Option RepoPath
  path : RepoPath
  deriving DecidableEq, Repr

namespace NumstatRecord

def count : Option Nat → Bytes
  | some lines => decimal lines
  | none => [45]

def counts (record : NumstatRecord) : Bytes :=
  count record.added ++ 9 :: (count record.removed ++ [9])

/-- The fields `-z` prints of a record: a rename has an empty path, then its old path and
its new one. -/
def fields (record : NumstatRecord) : List Bytes :=
  match record.renamedFrom with
  | none => [record.counts ++ record.path]
  | some old => [record.counts, old, record.path]

def statistics (record : NumstatRecord) : DiffStatistics :=
  ⟨record.added.getD 0, record.removed.getD 0⟩

end NumstatRecord

/-- What `git` prints of a list of records. -/
def printNumstat (records : List NumstatRecord) : Bytes :=
  closeAll 0 (records.flatMap NumstatRecord.fields)

/-- What `git` answers about the trees of snapshots. -/
structure Git where
  /-- Whether `git cat-file -e` finds the tree. -/
  hasTree : SnapshotId → Bool
  /-- What `git diff --numstat -z --find-renames` prints for the paths that pathspecs match;
  nothing when it fails. -/
  numstat : SnapshotId → SnapshotId → Finset Bytes → Option (List NumstatRecord)
  /-- What `git diff` prints for the paths that a pathspec matches. -/
  diff : SnapshotId → SnapshotId → Bytes → Option Bytes

def gitLiteralPathspec (path : RepoPath) : Bytes := bytesOf ":(top,literal)" ++ path

/-- A count as `u64` reads it. -/
def parseU64 (value : Bytes) : Option Nat :=
  let digits := if value.head? = some 43 then value.tail else value
  if digits ≠ [] ∧ digits.all isDigit ∧ ofDecimal digits < 2 ^ 64 then some (ofDecimal digits)
  else none

def parseLineCount (value : Bytes) : Except Error Nat :=
  if value = [45] then .ok 0
  else match parseU64 value with
    | some lines => .ok lines
    | none => .error (.repository "Git returned an invalid line count")

/-- Statistics by path. -/
abbrev PathStatistics := RepoPath → Option DiffStatistics

def addStatistics (statistics : PathStatistics) (added removed : Bytes) (path : RepoPath) :
    Except Error PathStatistics := do
  let added ← parseLineCount added
  let removed ← parseLineCount removed
  return Function.update statistics path (some ⟨added, removed⟩)

def readGitStats (statistics : PathStatistics) : List Bytes → Except Error PathStatistics
  | [] => .ok statistics
  | record :: fields =>
    match (cutAt 9 record).bind fun (added, rest) => (cutAt 9 rest).map fun (removed, path) =>
        (added, removed, path) with
    | none => .error (.repository "Git returned incomplete diff statistics")
    | some (added, removed, path) =>
      if path = [] then
        match fields with
        | _ :: path :: fields => do
          readGitStats (← addStatistics statistics added removed path) fields
        | _ => .error (.repository "Git returned an incomplete rename statistic")
      else do
        readGitStats (← addStatistics statistics added removed path) fields

/-- Parse the per-path line counts printed by `git diff --numstat -z`. -/
def parseGitStats (output : Bytes) : Except Error PathStatistics :=
  let fields := output.splitOn 0
  if fields.getLast? ≠ some [] then .error (.repository "Git returned invalid diff statistics")
  else readGitStats (fun _ => none) fields.dropLast

namespace Git

variable (git : Git) (snapshot : Snapshot)

def interdiff (baseline : SnapshotId) (path : RepoPath) : Except Error Interdiff :=
  if git.hasTree baseline then
    match git.diff baseline snapshot.identity.snapshotId path with
    | some unified => .ok (.diff unified)
    | none => .error (.repository "read Git repository")
  else .ok .missingBaseline

/-- Compare the paths that one baseline reviewed. -/
def compareBaseline (baseline : SnapshotId) (paths : Finset RepoPath) :
    Except Error BaselineComparison :=
  match git.numstat baseline snapshot.identity.snapshotId (paths.image gitLiteralPathspec) with
  | some records => (parseGitStats (printNumstat records)).map .compared
  | none =>
    if git.hasTree baseline then .error (.repository "read Git repository") else .ok .missing

/-- The paths that a plan has for a baseline. -/
def plannedPaths (plan : BaselineComparisonPlan) (baseline : SnapshotId) : Finset RepoPath :=
  (plan.filter fun entry => entry.1 = baseline).image Prod.snd

def compareEach (plan : BaselineComparisonPlan) :
    (SnapshotId → Option BaselineComparison) → List SnapshotId →
      Except Error (SnapshotId → Option BaselineComparison)
  | results, [] => .ok results
  | results, baseline :: rest => do
    let comparison ← git.compareBaseline snapshot baseline (plannedPaths plan baseline)
    compareEach plan (Function.update results baseline (some comparison)) rest

def compareBaselines (plan : BaselineComparisonPlan) :
    Except Error (SnapshotId → Option BaselineComparison) :=
  git.compareEach snapshot plan (fun _ => none) ((plan.image Prod.fst).sort (· ≤ ·))

/-- A repository whose backend is Git. -/
def repository (other : Repository) : Repository :=
  { other with
    interdiff := fun baseline snapshot path => git.interdiff snapshot baseline path
    compareBaselines := git.compareBaselines }

end Git

/-! What is printed is read back. -/

namespace NumstatRecord

/-- A record of paths as Git has them, with counts in 64 bits. -/
structure Clean (record : NumstatRecord) : Prop where
  named : record.path ≠ []
  path : 0 ∉ record.path
  old : ∀ old, record.renamedFrom = some old → 0 ∉ old
  counts : ∀ lines, record.added = some lines ∨ record.removed = some lines → lines < 2 ^ 64

theorem mark_not_mem_count {lines : Option Nat} {mark : UInt8} (other : isDigit mark = false)
    (dash : mark ≠ 45) : mark ∉ count lines := by
  intro mem
  cases lines with
  | none => exact dash (List.mem_singleton.mp mem)
  | some lines => rw [isDigit_decimal mark mem] at other; cases other

theorem parseLineCount_count {lines : Option Nat} (small : ∀ n, lines = some n → n < 2 ^ 64) :
    parseLineCount (count lines) = .ok (lines.getD 0) := by
  cases lines with
  | none => rfl
  | some n =>
    have undashed : decimal n ≠ [45] := fun same => by
      have dash := isDigit_decimal 45 (same ▸ List.mem_singleton_self 45)
      exact absurd dash (by decide)
    have unsigned : (decimal n).head? ≠ some 43 := fun plus => by
      have sign := isDigit_decimal 43 (List.mem_of_mem_head? plus)
      exact absurd sign (by decide)
    have all : (decimal n).all isDigit = true := List.all_eq_true.mpr fun byte => isDigit_decimal byte
    have read : parseU64 (decimal n) = some n := by
      simp only [parseU64, if_neg unsigned, ofDecimal_decimal]
      exact if_pos ⟨decimal_ne_nil, all, small n rfl⟩
    simp only [count, parseLineCount, if_neg undashed, read, Option.getD_some]

variable {record : NumstatRecord} {statistics : PathStatistics}

/-- The statistics with a record in them. -/
def tally (statistics : PathStatistics) (record : NumstatRecord) : PathStatistics :=
  Function.update statistics record.path (some record.statistics)

theorem addStatistics_counts (clean : record.Clean) : addStatistics statistics (count record.added)
    (count record.removed) record.path =
      .ok (tally statistics record) := by
  simp only [addStatistics, parseLineCount_count fun n given => clean.counts n (.inl given),
    parseLineCount_count fun n given => clean.counts n (.inr given)]
  rfl

theorem cut_counts {path : RepoPath} : ((cutAt 9 (record.counts ++ path)).bind fun (added, rest) =>
    (cutAt 9 rest).map fun (removed, path) => (added, removed, path)) =
      some (count record.added, count record.removed, path) := by
  have first : cutAt 9 (record.counts ++ path) =
      some (count record.added, count record.removed ++ 9 :: path) := by
    rw [counts, List.append_assoc, List.cons_append, List.append_assoc, List.singleton_append]
    exact cutAt_append (mark_not_mem_count (by decide) (by decide))
  have second : cutAt 9 (count record.removed ++ 9 :: path) = some (count record.removed, path) :=
    cutAt_append (mark_not_mem_count (by decide) (by decide))
  simp [first, second]

theorem readGitStats_fields (clean : record.Clean) {rest : List Bytes} :
    readGitStats statistics (record.fields ++ rest) =
      readGitStats (tally statistics record) rest := by
  unfold fields
  cases record.renamedFrom with
  | none =>
    rw [List.singleton_append, readGitStats, cut_counts]
    simp only [if_neg clean.named, addStatistics_counts clean]
    rfl
  | some old =>
    have bare : ((cutAt 9 record.counts).bind fun (added, rest) =>
        (cutAt 9 rest).map fun (removed, path) => (added, removed, path)) =
          some (count record.added, count record.removed, []) := by
      rw [← List.append_nil record.counts]
      exact cut_counts
    rw [List.cons_append, List.cons_append, List.singleton_append, readGitStats, bare]
    simp only [if_true, addStatistics_counts clean]
    rfl

end NumstatRecord

theorem readGitStats_records {records : List NumstatRecord} {statistics : PathStatistics}
    (clean : ∀ record ∈ records, record.Clean) :
    readGitStats statistics (records.flatMap NumstatRecord.fields) = .ok (records.foldl NumstatRecord.tally statistics) := by
  induction records generalizing statistics with
  | nil => rfl
  | cons record rest ih =>
    obtain ⟨first, clean⟩ := List.forall_mem_cons.mp clean
    rw [List.flatMap_cons, NumstatRecord.readGitStats_fields first, ih clean, List.foldl_cons]

/-- The statistics read back are those of the paths printed. -/
theorem parseGitStats_print {records : List NumstatRecord}
    (clean : ∀ record ∈ records, record.Clean) :
    parseGitStats (printNumstat records) = .ok (records.foldl NumstatRecord.tally fun _ => none) := by
  have marks : ∀ field ∈ records.flatMap NumstatRecord.fields, (0 : UInt8) ∉ field := by
    intro field mem
    obtain ⟨record, held, mem⟩ := List.mem_flatMap.mp mem
    have clean := clean record held
    have counts : (0 : UInt8) ∉ record.counts := by
      have first : (0 : UInt8) ∉ NumstatRecord.count record.added :=
        NumstatRecord.mark_not_mem_count rfl (by decide)
      have second : (0 : UInt8) ∉ NumstatRecord.count record.removed :=
        NumstatRecord.mark_not_mem_count rfl (by decide)
      simp [NumstatRecord.counts, first, second]
    unfold NumstatRecord.fields at mem
    cases given : record.renamedFrom with
    | none =>
      rw [given] at mem
      obtain rfl := List.mem_singleton.mp mem
      exact fun mem => (List.mem_append.mp mem).elim counts clean.path
    | some old =>
      rw [given] at mem
      simp only [List.mem_cons, List.not_mem_nil, or_false] at mem
      rcases mem with rfl | rfl | rfl
      · exact counts
      · exact clean.old _ given
      · exact clean.path
  rw [parseGitStats, printNumstat, splitOn_closeAll marks]
  simp [readGitStats_records clean]

theorem statistics_isSome {records : List NumstatRecord} {statistics : PathStatistics} {path : RepoPath} :
    (records.foldl NumstatRecord.tally statistics path).isSome = true ↔
    (statistics path).isSome = true ∨ ∃ record ∈ records, record.path = path := by
  induction records generalizing statistics with
  | nil => simp
  | cons record rest ih =>
    rw [List.foldl_cons, ih, NumstatRecord.tally]
    by_cases here : path = record.path
    · subst here
      simp
    · simp [Function.update_of_ne here, Ne.symm here]

end ProgressiveReviewer.Marks
