import Mathlib.Algebra.Ring.Nat
import Mathlib.Algebra.Order.BigOperators.Group.List
import Mathlib.Algebra.Order.Group.Nat
import ProgressiveReviewer.Library.Keyed
import ProgressiveReviewer.Library.Words
import ProgressiveReviewer.Marks.Tracker

/-! Bounded reuse of immutable diff data, keyed by snapshot and saved review mark
(`review-state/src/diff_cache.rs`). A call that leaves the machine word of the running total has no
result. -/

namespace ProgressiveReviewer.Marks

open Library Hunks

def maxBytes : Nat := 32 * 1024 * 1024

namespace ReviewDiff

variable (self : ReviewDiff)

def byteLen : Option Nat := do
  let both ← Words.add self.unified.length ((self.oldContent.map List.length).getD 0)
  Words.add both ((self.newContent.map List.length).getD 0)

/-- The length of the diff and both files. -/
def size : Nat :=
  self.unified.length + (self.oldContent.map List.length).getD 0 +
    (self.newContent.map List.length).getD 0

theorem byteLen_eq {self : ReviewDiff} (fits : self.size ≤ Words.maxWord) :
    self.byteLen = some self.size := by
  have both : Words.add self.unified.length ((self.oldContent.map List.length).getD 0) =
      some (self.unified.length + (self.oldContent.map List.length).getD 0) :=
    Words.add_eq (Nat.le_trans (Nat.le_add_right _ _) fits)
  rw [byteLen, both]
  exact Words.add_eq fits

end ReviewDiff

/-- A diff in memory: its three buffers lie apart in one address space. -/
structure HeldDiff where
  diff : ReviewDiff
  fits : diff.size ≤ Words.maxWord

structure CachedDiff where
  path : RepoPath
  record : LoadResult
  diff : ReviewDiff
  deriving DecidableEq

/-- The cached diffs of one snapshot, whose identity is compared as a whole. -/
structure DiffCache (σ : Type) where
  snapshot : Option σ
  files : List CachedDiff
  bytes : Nat
  deriving DecidableEq

namespace DiffCache

variable {σ : Type} [DecidableEq σ]

def empty : DiffCache σ := ⟨none, [], 0⟩

/-- Take the snapshot a diff is asked for; the diffs of another one go. -/
def turnTo (self : DiffCache σ) (snapshot : σ) : DiffCache σ :=
  if self.snapshot = some snapshot then self else ⟨some snapshot, [], 0⟩

def get (self : DiffCache σ) (snapshot : σ) (path : RepoPath) (record : LoadResult) :
    DiffCache σ × Option ReviewDiff :=
  let self := self.turnTo snapshot
  (self, ((Keyed.find CachedDiff.path path self.files).filter (·.record = record)).map (·.diff))

/-- Take the diff of a path out. -/
def remove (self : DiffCache σ) (path : RepoPath) : Option (DiffCache σ) :=
  match Keyed.find CachedDiff.path path self.files with
  | none => some self
  | some previous => do
    let bytes ← Words.sub self.bytes (← previous.diff.byteLen)
    some { self with files := Keyed.without CachedDiff.path path self.files, bytes }

def insert (self : DiffCache σ) (snapshot : σ) (path : RepoPath) (record : LoadResult)
    (diff : ReviewDiff) : Option (DiffCache σ) :=
  -- a slow read from an older snapshot must not replace newer cached data
  if self.snapshot ≠ some snapshot then some self
  else do
    let self ← self.remove path
    let bytes ← diff.byteLen
    if maxBytes < bytes then some self
    else do
      let sum ← Words.add self.bytes bytes
      let self := if maxBytes < sum then { self with files := [], bytes := 0 } else self
      let total ← Words.add self.bytes bytes
      some { self with files := ⟨path, record, diff⟩ :: self.files, bytes := total }

inductive Call (σ : Type) where
  | get (snapshot : σ) (path : RepoPath) (record : LoadResult)
  | insert (snapshot : σ) (path : RepoPath) (record : LoadResult) (held : HeldDiff)

def call (self : DiffCache σ) : Call σ → Option (DiffCache σ)
  | .get snapshot path record => some (self.get snapshot path record).1
  | .insert snapshot path record held => self.insert snapshot path record held.diff

/-- The cache after some calls. -/
def run (calls : List (Call σ)) : Option (DiffCache σ) := calls.foldlM call empty

/-- The bytes of the cached diffs. -/
def total (files : List CachedDiff) : Nat := (files.map (·.diff.size)).sum

/-- What holds of the cache after some calls. -/
structure Holds (calls : List (Call σ)) (cache : DiffCache σ) : Prop where
  counted : cache.bytes = total cache.files
  bounded : cache.bytes ≤ maxBytes
  nodup : (cache.files.map CachedDiff.path).Nodup
  given : ∀ file ∈ cache.files, ∃ snapshot held, cache.snapshot = some snapshot ∧
    .insert snapshot file.path file.record held ∈ calls ∧ held.diff = file.diff

variable {self : DiffCache σ} {calls : List (Call σ)} {snapshot : σ} {path : RepoPath}
  {record : LoadResult}

omit [DecidableEq σ] in
theorem holds_none (calls : List (Call σ)) (snapshot : Option σ) : Holds calls ⟨snapshot, [], 0⟩ :=
  ⟨rfl, Nat.zero_le _, .nil, fun _ none => (nomatch none)⟩

omit [DecidableEq σ] in
theorem Holds.later (holds : Holds calls self) (call : Call σ) : Holds (calls ++ [call]) self := by
  refine ⟨holds.counted, holds.bounded, holds.nodup, fun file mem => ?_⟩
  obtain ⟨snapshot, held, own, given, same⟩ := holds.given file mem
  exact ⟨snapshot, held, own, List.mem_append_left _ given, same⟩

theorem Holds.turnTo (holds : Holds calls self) (snapshot : σ) : Holds calls (self.turnTo snapshot) := by
  rw [DiffCache.turnTo]
  split_ifs
  · exact holds
  · exact holds_none calls _

theorem turnTo_snapshot (self : DiffCache σ) (snapshot : σ) :
    (self.turnTo snapshot).snapshot = some snapshot := by
  rw [turnTo]
  split_ifs with same
  · exact same
  · rfl

/-- One diff is no longer than all of them. -/
theorem size_le_total {files : List CachedDiff} {file : CachedDiff} (mem : file ∈ files) :
    file.diff.size ≤ total files :=
  List.single_le_sum (fun _ _ => Nat.zero_le _) _ (List.mem_map_of_mem mem)

omit [DecidableEq σ] in
/-- Taking a diff out subtracts what it added. -/
theorem Holds.remove (holds : Holds calls self) (path : RepoPath) :
    ∃ left, self.remove path = some left ∧ Holds calls left ∧ left.snapshot = self.snapshot ∧
      path ∉ left.files.map CachedDiff.path := by
  rw [DiffCache.remove]
  cases found : Keyed.find CachedDiff.path path self.files with
  | none =>
    refine ⟨self, rfl, holds, rfl, fun mem => ?_⟩
    obtain ⟨file, mem, same⟩ := List.mem_map.mp mem
    exact Keyed.find_eq_none.mp found file mem same
  | some previous =>
    have le : previous.diff.size ≤ self.bytes :=
      holds.counted ▸ size_le_total (Keyed.mem_of_find found)
    have sized : previous.diff.byteLen = some previous.diff.size :=
      ReviewDiff.byteLen_eq (le.trans (holds.bounded.trans (by decide)))
    have left : self.bytes = total (Keyed.without CachedDiff.path path self.files) +
        previous.diff.size := by
      rw [holds.counted]
      exact (Keyed.sum_without (fun file : CachedDiff => file.diff.size) holds.nodup found).symm
    refine ⟨{ self with
      files := Keyed.without CachedDiff.path path self.files
      bytes := self.bytes - previous.diff.size }, ?_, ⟨?_, ?_, ?_, ?_⟩, rfl, Keyed.not_mem_without⟩
    · dsimp only
      rw [sized, Option.bind_eq_bind, Option.bind_some, Words.sub_eq le]
      rfl
    · exact (congrArg (· - _) left).trans (Nat.add_sub_cancel _ _)
    · exact (Nat.sub_le _ _).trans holds.bounded
    · exact Keyed.nodup_without holds.nodup
    · exact fun file mem => holds.given file (List.mem_filter.mp mem).1

omit [DecidableEq σ] in
/-- A diff put where its path has none. -/
theorem Holds.put (holds : Holds calls self) (current : self.snapshot = some snapshot)
    (apart : path ∉ self.files.map CachedDiff.path) (record : LoadResult) (held : HeldDiff)
    (room : self.bytes + held.diff.size ≤ maxBytes) :
    Holds (calls ++ [.insert snapshot path record held])
      { self with
        files := ⟨path, record, held.diff⟩ :: self.files
        bytes := self.bytes + held.diff.size } := by
  refine ⟨?_, room, List.nodup_cons.mpr ⟨apart, holds.nodup⟩, List.forall_mem_cons.mpr ⟨?_, ?_⟩⟩
  · rw [holds.counted, Nat.add_comm]
    rfl
  · exact ⟨snapshot, held, current, List.mem_append_right _ (.head _), rfl⟩
  · exact (holds.later _).given

theorem Holds.insert (holds : Holds calls self) (snapshot : σ) (path : RepoPath)
    (record : LoadResult) (held : HeldDiff) :
    ∃ next, self.insert snapshot path record held.diff = some next ∧
      Holds (calls ++ [.insert snapshot path record held]) next := by
  rw [DiffCache.insert]
  split_ifs with current
  · exact ⟨self, rfl, holds.later _⟩
  · obtain ⟨left, removed, kept, same, apart⟩ := holds.remove path
    rw [removed, ReviewDiff.byteLen_eq held.fits]
    dsimp only [Option.bind_eq_bind, Option.bind_some]
    split_ifs with oversized
    · exact ⟨left, rfl, kept.later _⟩
    · have within : held.diff.size ≤ maxBytes := Nat.not_lt.mp oversized
      have sum : Words.add left.bytes held.diff.size = some (left.bytes + held.diff.size) :=
        Words.add_eq ((Nat.add_le_add kept.bounded within).trans (by decide))
      have snapped : left.snapshot = some snapshot := same.trans (not_not.mp current)
      rw [sum, Option.bind_some]
      split_ifs with full
      · have alone : Words.add 0 held.diff.size = some (0 + held.diff.size) :=
          Words.add_eq (by rw [Nat.zero_add]; exact held.fits)
        dsimp only
        rw [alone, Option.bind_some]
        have none_ := holds_none calls left.snapshot
        refine ⟨_, rfl, none_.put snapped (fun none => (nomatch none)) record held ?_⟩
        exact (Nat.zero_add _).trans_le within
      · rw [sum, Option.bind_some]
        exact ⟨_, rfl, kept.put snapped apart record held (Nat.not_lt.mp full)⟩

/-- Every call has a result and keeps what holds. -/
theorem Holds.call (holds : Holds calls self) (call : Call σ) :
    ∃ next, self.call call = some next ∧ Holds (calls ++ [call]) next := by
  cases call with
  | get snapshot path record => exact ⟨_, rfl, (holds.turnTo snapshot).later _⟩
  | insert snapshot path record held => exact holds.insert snapshot path record held

theorem holds_run (calls : List (Call σ)) : ∃ cache, run calls = some cache ∧ Holds calls cache := by
  induction calls using List.reverseRecOn with
  | nil => exact ⟨empty, rfl, holds_none [] none⟩
  | append_singleton calls call ih =>
    obtain ⟨cache, ran, holds⟩ := ih
    obtain ⟨next, called, holds⟩ := holds.call call
    refine ⟨next, ?_, holds⟩
    rw [run] at ran ⊢
    rw [List.foldlM_append, ran]
    exact (Option.bind_some _ _).trans (by rw [List.foldlM_cons, called]; rfl)

/-- What a lookup finds was put there for the same snapshot, path and record. -/
theorem Holds.get {diff : ReviewDiff} (holds : Holds calls self)
    (found : (self.get snapshot path record).2 = some diff) :
    ∃ held, .insert snapshot path record held ∈ calls ∧ held.diff = diff := by
  obtain ⟨file, own, rfl⟩ := Option.map_eq_some_iff.mp found
  obtain ⟨found, same⟩ := Option.filter_eq_some_iff.mp own
  obtain ⟨taken, held, current, given, equal⟩ :=
    (holds.turnTo snapshot).given file (Keyed.mem_of_find found)
  obtain rfl : taken = snapshot := Option.some.inj (current.symm.trans (turnTo_snapshot self snapshot))
  rw [Keyed.key_of_find found, of_decide_eq_true same] at given
  exact ⟨held, given, equal⟩

/-- After any calls the running total is the length of the cached diffs and within the maximum; it
never left its word. A diff found is one that was inserted for the same snapshot, path and record. -/
theorem run_counted (calls : List (Call σ)) : ∃ cache, run calls = some cache ∧
    cache.bytes = total cache.files ∧ cache.bytes ≤ maxBytes ∧
    ∀ snapshot path record diff, (cache.get snapshot path record).2 = some diff →
      ∃ held, .insert snapshot path record held ∈ calls ∧ held.diff = diff := by
  obtain ⟨cache, ran, holds⟩ := holds_run calls
  exact ⟨cache, ran, holds.counted, holds.bounded, fun _ _ _ _ found => holds.get found⟩

end DiffCache

end ProgressiveReviewer.Marks
