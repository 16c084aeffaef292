import ProgressiveReviewer.Hunks.Text
import ProgressiveReviewer.Library.RunLength
import Std.Data.TreeMap
import Std.Data.TreeMap.Lemmas

/-! Who accepted the changes a reviewed version holds
(`review-hunks/src/attribution.rs`), and the rebuild that writes a reviewed version
line by line. `Rebuild.finish` attributes every line it writes to the author it was
written with, whatever edits the differ then finds. -/

namespace ProgressiveReviewer.Hunks

open Library Library.Extent
open Std (TreeMap)

/-- Who marked changed lines reviewed. -/
inductive MarkAuthor where
  | reviewer
  | jev
  | explore (answer : String)
  | exploreRead (request : String)
  deriving DecidableEq, Repr

instance : Inhabited MarkAuthor := ⟨.reviewer⟩

/-- Consecutive lines one author accepted. -/
abbrev AuthoredLines := Run MarkAuthor

abbrev AuthoredLines.lines (entry : AuthoredLines) : Range := entry.extent

abbrev AuthoredLines.author (entry : AuthoredLines) : MarkAuthor := entry.value

/-- Who accepted each change of a reviewed version. The base lines it removes
are numbered like the base and the lines it adds like the reviewed
version. A changed line without an entry was accepted by `default`. -/
structure Attribution where
  default : MarkAuthor
  removed : List AuthoredLines
  added : List AuthoredLines
  deriving DecidableEq, Repr

/-- A reviewed version and who accepted its changes. -/
structure Reviewed where
  text : Bytes
  attribution : Attribution
  deriving DecidableEq, Repr

namespace Attribution

/-- Every change accepted by one author. -/
def uniform (author : MarkAuthor) : Attribution := ⟨author, [], []⟩

/-- The attribution of a reviewed version whose changes the reviewer accepted. -/
def reviewerOnly : Attribution := uniform .reviewer

instance : Inhabited Attribution := ⟨reviewerOnly⟩

/-- The one author of every change, when there is only one. -/
def uniformAuthor (attribution : Attribution) : Option MarkAuthor :=
  if attribution.removed.isEmpty && attribution.added.isEmpty then some attribution.default
  else none

def author (entries : List AuthoredLines) (line : Nat) : Option MarkAuthor :=
  Run.lookup entries line

/-- Who accepted the removal of one base line. -/
def removedBy (attribution : Attribution) (line : Nat) : MarkAuthor :=
  (author attribution.removed line).getD attribution.default

/-- Who accepted one added line of the reviewed version. -/
def addedBy (attribution : Attribution) (line : Nat) : MarkAuthor :=
  (author attribution.added line).getD attribution.default

/-- Runs of `authors` that differ from the default. -/
def runs (attribution : Attribution) (authors : List (Nat × MarkAuthor)) : List AuthoredLines :=
  Run.collect attribution.default authors

/-- Both lists hold sorted, disjoint, non-empty runs, merged when they touch with
one author, and none of the default. -/
structure Canonical (attribution : Attribution) : Prop where
  removed : Run.Canonical attribution.default attribution.removed
  added : Run.Canonical attribution.default attribution.added

theorem canonical_uniform (author : MarkAuthor) : (uniform author).Canonical :=
  ⟨⟨by simp [uniform], by simp [uniform], by simp [uniform]⟩,
    ⟨by simp [uniform], by simp [uniform], by simp [uniform]⟩⟩

@[simp] theorem removedBy_uniform (author : MarkAuthor) (line : Nat) :
    (uniform author).removedBy line = author := rfl

@[simp] theorem addedBy_uniform (author : MarkAuthor) (line : Nat) :
    (uniform author).addedBy line = author := rfl

theorem uniformAuthor_eq_some {attribution : Attribution} {author : MarkAuthor} :
    attribution.uniformAuthor = some author ↔ attribution = uniform author := by
  obtain ⟨default, removed, added⟩ := attribution
  cases removed <;> cases added <;> simp [uniformAuthor, uniform]

end Attribution

/-- A new reviewed version written line by line, remembering who accepted
each line in case it turns out to be a change from the base. -/
structure Rebuild where
  default : MarkAuthor
  text : Bytes
  /-- The author of each written line, should it be an added line. -/
  authors : List MarkAuthor
  /-- Who accepted the removal of base lines, should they be removed. -/
  removed : TreeMap Nat MarkAuthor

namespace Rebuild

/-- Start without any known base removals. -/
def withDefault (default : MarkAuthor) : Rebuild := ⟨default, [], [], ∅⟩

def push (rebuild : Rebuild) (line : Bytes) (author : MarkAuthor) : Rebuild :=
  { rebuild with text := rebuild.text ++ line, authors := rebuild.authors ++ [author] }

/-- Record who accepted the removal of one base line. -/
def remove (rebuild : Rebuild) (line : Nat) (author : MarkAuthor) : Rebuild :=
  { rebuild with removed := rebuild.removed.insert line author }

/-- Start from the authors of base removals `previous` already holds,
numbered like the same base. -/
def on (previous : Attribution) : Rebuild :=
  previous.removed.foldl (fun rebuild entry =>
      entry.lines.positions.foldl (fun rebuild line => rebuild.remove line entry.author) rebuild)
    (withDefault previous.default)

/-- Copy `range` of the reviewed version `lines`, with the authors
`attribution` gives the ones it added; `none` when `range` is not
within `lines`. -/
def keep (rebuild : Rebuild) (lines : Lines) (range : Range) (attribution : Attribution) :
    Option Rebuild := do
  let texts ← lines.get range
  some ((range.positions.zip texts).foldl
    (fun rebuild entry => rebuild.push entry.2 (attribution.addedBy entry.1)) rebuild)

/-- The reviewed version, attributing only the lines that differ from
`base`. When one author accepted every change, they become the default. -/
def finish (d : Differ) (rebuild : Rebuild) (base : Bytes) : Reviewed :=
  let changes := d.changes base rebuild.text
  let added := changes.flatMap fun change => change.after.positions.map fun line =>
    (line, (rebuild.authors[line]?).getD rebuild.default)
  let removed := changes.flatMap fun change => change.before.positions.map fun line =>
    (line, (rebuild.removed[line]?).getD rebuild.default)
  let default := match (added ++ removed).map (·.2) with
    | first :: rest => if rest.all fun author => author == first then first else rebuild.default
    | [] => rebuild.default
  let attribution := Attribution.uniform default
  ⟨rebuild.text,
    { attribution with
      added := attribution.runs added
      removed := attribution.runs removed }⟩

variable (rebuild : Rebuild)

@[simp] theorem push_text (line : Bytes) (author : MarkAuthor) :
    (rebuild.push line author).text = rebuild.text ++ line := rfl
@[simp] theorem push_authors (line : Bytes) (author : MarkAuthor) :
    (rebuild.push line author).authors = rebuild.authors ++ [author] := rfl
@[simp] theorem push_removed (line : Bytes) (author : MarkAuthor) :
    (rebuild.push line author).removed = rebuild.removed := rfl
@[simp] theorem push_default (line : Bytes) (author : MarkAuthor) :
    (rebuild.push line author).default = rebuild.default := rfl
@[simp] theorem remove_text (line : Nat) (author : MarkAuthor) :
    (rebuild.remove line author).text = rebuild.text := rfl
@[simp] theorem remove_authors (line : Nat) (author : MarkAuthor) :
    (rebuild.remove line author).authors = rebuild.authors := rfl
@[simp] theorem remove_default (line : Nat) (author : MarkAuthor) :
    (rebuild.remove line author).default = rebuild.default := rfl

@[simp] theorem finish_text (d : Differ) (base : Bytes) :
    (rebuild.finish d base).text = rebuild.text := rfl

/-- Write lines, each with its author, and record removals of base lines. Whatever
edits a reviewed version does so. -/
def write (lines : List (Bytes × MarkAuthor)) (removals : List (Nat × MarkAuthor)) : Rebuild where
  default := rebuild.default
  text := rebuild.text ++ (lines.map (·.1)).flatten
  authors := rebuild.authors ++ lines.map (·.2)
  removed := removals.foldl (fun removed entry => removed.insert entry.1 entry.2) rebuild.removed

theorem write_nil : rebuild.write [] [] = rebuild := by
  simp [write]

theorem write_write (lines lines' : List (Bytes × MarkAuthor))
    (removals removals' : List (Nat × MarkAuthor)) :
    (rebuild.write lines removals).write lines' removals' =
      rebuild.write (lines ++ lines') (removals ++ removals') := by
  simp [write, List.foldl_append]

theorem push_eq_write (line : Bytes) (author : MarkAuthor) :
    rebuild.push line author = rebuild.write [(line, author)] [] := by
  simp [write, push]

theorem remove_eq_write (line : Nat) (author : MarkAuthor) :
    rebuild.remove line author = rebuild.write [] [(line, author)] := by
  simp [write, remove]

theorem foldl_push {β : Type*} (text : β → Bytes) (author : β → MarkAuthor) (entries : List β) :
    entries.foldl (fun rebuild entry => rebuild.push (text entry) (author entry)) rebuild =
      rebuild.write (entries.map fun entry => (text entry, author entry)) [] := by
  induction entries generalizing rebuild with
  | nil => exact rebuild.write_nil.symm
  | cons entry entries ih =>
    rw [List.foldl_cons, ih, push_eq_write, write_write]
    rfl

theorem foldl_remove {β : Type*} (line : β → Option Nat) (author : β → MarkAuthor)
    (entries : List β) :
    entries.foldl (fun rebuild entry =>
        match line entry with
        | some line => rebuild.remove line (author entry)
        | none => rebuild) rebuild =
      rebuild.write [] (entries.filterMap fun entry =>
        (line entry).map fun line => (line, author entry)) := by
  induction entries generalizing rebuild with
  | nil => exact rebuild.write_nil.symm
  | cons entry entries ih =>
    rw [List.foldl_cons, ih, List.filterMap_cons]
    cases line entry with
    | none => rfl
    | some line =>
      dsimp only [Option.map_some]
      rw [remove_eq_write, write_write]
      rfl

/-- The last removal recorded for a base line is the one that counts. -/
theorem write_removed {lines : List (Bytes × MarkAuthor)} {removals : List (Nat × MarkAuthor)}
    {n : Nat} (author : MarkAuthor) (only : ∀ a, (n, a) ∈ removals → a = author) :
    (rebuild.write lines removals).removed[n]? =
      if (n, author) ∈ removals then some author else rebuild.removed[n]? := by
  suffices h : ∀ removed : TreeMap Nat MarkAuthor,
      (removals.foldl (fun removed entry => removed.insert entry.1 entry.2) removed)[n]? =
        if (n, author) ∈ removals then some author else removed[n]? from h rebuild.removed
  induction removals with
  | nil => simp
  | cons entry removals ih =>
    intro removed
    rw [List.foldl_cons, ih fun a mem => only a (List.mem_cons_of_mem entry mem)]
    by_cases later : (n, author) ∈ removals
    · simp [later]
    · by_cases own : entry.1 = n
      · have same : entry = (n, author) := by
          rw [← only entry.2 (by simp [← own])]
          exact Prod.ext own rfl
        subst same
        simp [later]
      · have other : (n, author) ≠ entry := fun eq => own (by rw [← eq])
        simp [later, own, other, TreeMap.getElem?_insert]

theorem on_eq_write (previous : Attribution) :
    on previous = (withDefault previous.default).write []
      (previous.removed.flatMap fun entry =>
        entry.lines.positions.map fun line => (line, entry.author)) := by
  suffices h : ∀ (entries : List AuthoredLines) (rebuild : Rebuild),
      entries.foldl (fun rebuild entry =>
          entry.lines.positions.foldl (fun rebuild line => rebuild.remove line entry.author) rebuild)
        rebuild =
        rebuild.write [] (entries.flatMap fun entry =>
          entry.lines.positions.map fun line => (line, entry.author)) from
    h previous.removed _
  intro entries
  induction entries with
  | nil => exact fun rebuild => rebuild.write_nil.symm
  | cons entry entries ih =>
    intro rebuild
    have one := rebuild.foldl_remove some (fun _ => entry.author) entry.lines.positions
    simp only [Option.map_some, List.filterMap_eq_map'] at one
    rw [List.foldl_cons, ih, one, write_write]
    rfl

/-- A rebuild starts with the authors of the removals its attribution names. -/
theorem on_removed {previous : Attribution} (canonical : previous.Canonical) (n : Nat) :
    ((on previous).removed[n]?).getD previous.default = previous.removedBy n := by
  have covers : ∀ a, (n, a) ∈ (previous.removed.flatMap fun entry =>
      entry.lines.positions.map fun line => (line, entry.author)) ↔
        Run.Covers previous.removed n a := by
    intro a
    simp only [List.mem_flatMap, List.mem_map, mem_positions, Prod.mk.injEq, Run.Covers, holds_iff]
    constructor
    · rintro ⟨run, mem, _, bound, rfl, rfl⟩
      exact ⟨run, mem, bound, rfl⟩
    · rintro ⟨run, mem, bound, rfl⟩
      exact ⟨run, mem, n, bound, rfl, rfl⟩
  have sorted := canonical.removed.sorted.imp fun {a b} h => h.1
  rw [on_eq_write]
  unfold Attribution.removedBy Attribution.author
  cases found : Run.lookup previous.removed n with
  | some author =>
    have covered := Run.covers_of_lookup found
    rw [write_removed _ author
      (fun a mem => Run.Covers.unique sorted ((covers a).mp mem) covered),
      if_pos ((covers author).mpr covered)]
  | none =>
    have uncovered := Run.not_covers_of_lookup found
    rw [write_removed _ previous.default
      (fun a mem => absurd ((covers a).mp mem) (uncovered a)),
      if_neg (fun mem => uncovered _ ((covers _).mp mem))]
    simp [withDefault]

end Rebuild

/-- A line of `text` that a change from `base` adds. -/
def Adds (d : Differ) (base text : Bytes) (line : Nat) : Prop :=
  ∃ change ∈ d.changes base text, change.after.holds line = true

/-- A line of `base` that a change to `text` removes. -/
def Removes (d : Differ) (base text : Bytes) (line : Nat) : Prop :=
  ∃ change ∈ d.changes base text, change.before.holds line = true

/-- Extents in order list their positions in order. -/
theorem positions_pairwise {β : Type*} {extents : List Extent} (value : Nat → β)
    (sorted : extents.Pairwise fun a b => a.stop ≤ b.start) :
    (extents.flatMap fun r => r.positions.map fun n => (n, value n)).Pairwise
      fun x y => x.1 < y.1 := by
  induction sorted with
  | nil => simp
  | cons first _ ih =>
    rw [List.flatMap_cons, List.pairwise_append]
    refine ⟨?_, ih, ?_⟩
    · rw [List.pairwise_map]
      exact positions_sorted _
    · rintro ⟨n, _⟩ mem ⟨m, _⟩ mem'
      simp only [List.mem_map, mem_positions, Prod.mk.injEq, List.mem_flatMap] at mem mem'
      obtain ⟨_, bound, rfl, _⟩ := mem
      obtain ⟨r, inside, _, bound', rfl, _⟩ := mem'
      have := first r inside
      dsimp only
      omega

section Finish

variable {d : Differ} (valid : d.Valid) (rebuild : Rebuild) (base : Bytes)

include valid

theorem Differ.Valid.before_values {β : Type*} (text : Bytes) (value : Nat → β) :
    ((d.changes base text).flatMap fun change =>
      change.before.positions.map fun line => (line, value line)).Pairwise
      fun x y => x.1 < y.1 := by
  have sorted : ((d.changes base text).map Edit.before).Pairwise fun a b => a.stop ≤ b.start := by
    rw [List.pairwise_map]
    exact (valid base text).pairwise.imp fun h => Nat.le_of_lt h.1
  simpa only [List.flatMap_map] using positions_pairwise value sorted

theorem Differ.Valid.after_values {β : Type*} (text : Bytes) (value : Nat → β) :
    ((d.changes base text).flatMap fun change =>
      change.after.positions.map fun line => (line, value line)).Pairwise
      fun x y => x.1 < y.1 := by
  have sorted : ((d.changes base text).map Edit.after).Pairwise fun a b => a.stop ≤ b.start := by
    rw [List.pairwise_map]
    exact (valid base text).pairwise.imp fun h => Nat.le_of_lt h.2
  simpa only [List.flatMap_map] using positions_pairwise value sorted

/-- An added line of the finished version has the author it was written with. -/
theorem Rebuild.finish_addedBy {line : Nat} (added : Adds d base rebuild.text line) :
    (rebuild.finish d base).attribution.addedBy line =
      (rebuild.authors[line]?).getD rebuild.default := by
  obtain ⟨change, mem, holds⟩ := added
  apply Run.lookup_collect (valid.after_values base rebuild.text _)
  simp only [List.mem_flatMap, List.mem_map, mem_positions, Prod.mk.injEq]
  exact ⟨change, mem, line, by simpa using holds, rfl, rfl⟩

/-- A removed base line has the author its removal was recorded with. -/
theorem Rebuild.finish_removedBy {line : Nat} (removed : Removes d base rebuild.text line) :
    (rebuild.finish d base).attribution.removedBy line =
      (rebuild.removed[line]?).getD rebuild.default := by
  obtain ⟨change, mem, holds⟩ := removed
  apply Run.lookup_collect (valid.before_values base rebuild.text _)
  simp only [List.mem_flatMap, List.mem_map, mem_positions, Prod.mk.injEq]
  exact ⟨change, mem, line, by simpa using holds, rfl, rfl⟩

theorem Rebuild.finish_canonical : (rebuild.finish d base).attribution.Canonical :=
  ⟨Run.collect_canonical (valid.before_values base rebuild.text _),
    Run.collect_canonical (valid.after_values base rebuild.text _)⟩

end Finish

end ProgressiveReviewer.Hunks
