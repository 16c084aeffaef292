import ProgressiveReviewer.Library.Folders
import ProgressiveReviewer.Unreviewed.Numbered
import Mathlib.Data.Char

/-! The unreviewed diffs of one prompt as files in a directory of their own
(`review-explore-session/src/unreviewed_diffs.rs`). A write that the system refuses ends the
writing with nothing kept, as a name that leaves the directory does. -/

namespace ProgressiveReviewer.Unreviewed

open Library

abbrev Directory := Folder (List Char) (List Char)

/-- The parts of a path below the directory, when all of them are normal: an absolute path has
a root, and only a leading `.` is a part. -/
def components (name : List Char) : Option (List (List Char)) :=
  let parts := name.splitOn '/'
  if name.head? = some '/' || parts.head? = some ['.'] || parts.contains ['.', '.'] then none
  else some (parts.filter fun part => part ≠ [] && part ≠ ['.'])

/-- Whether the path ends like that of a directory, which no file is written at. -/
def endsInside (name : List Char) : Bool :=
  let last := (name.splitOn '/').getLastD []
  last = [] || last = ['.']

structure UnreviewedDiffs where
  directory : Directory
  /-- The diffs that could not sit at their source path, as (source path, file name) pairs. -/
  displaced : List (List Char × List Char)

/-- Lists the displaced diffs, at the top of the directory. -/
def indexName : List Char := "__herdr_reviewer_index__".toList

/-- What the reviewer's own files at the top of the directory start with. -/
def reserved : List Char := "__herdr_reviewer_".toList

def displacedName (number : Nat) : List Char :=
  reserved ++ "displaced_".toList ++ Nat.toDigits 10 number ++ "__".toList

namespace UnreviewedDiffs

variable (diffs : UnreviewedDiffs)

/-- Whether another diff already uses the path as a directory, or one of its parent directories
as a file. A path that ends like a directory's is not that of a file. -/
def taken (name : List Char) (path : List (List Char)) : Bool :=
  (if endsInside name then diffs.directory.isFolder path else diffs.directory.isThere path) ||
    (Folder.steps path.dropLast).any diffs.directory.isFile

def writeAt (name : List Char) (path : List (List Char)) (text : List Char) :
    Option UnreviewedDiffs := do
  let parents ← diffs.directory.makeAll path.dropLast
  if endsInside name then none
  else return { diffs with directory := (← parents.writeFile path text) }

/-- Write one diff at its source path, or at the top of the directory when that path cannot
hold it. -/
def place (name text : List Char) : Option UnreviewedDiffs := do
  let path ← components name
  if !reserved.isPrefixOf name && !diffs.taken name path then diffs.writeAt name path text
  else
    let displaced := displacedName (diffs.displaced.length + 1)
    return ⟨← diffs.directory.writeFile [displaced] text, diffs.displaced ++ [(name, displaced)]⟩

/-- The file listing the displaced diffs, when there are any. -/
def index : Option (List (List Char)) :=
  if diffs.displaced.isEmpty then none else some [indexName]

def indexText : List Char :=
  "These diffs are not at their repository path: another diff uses it as a file or as a directory, or its name is the reviewer's own:\n".toList ++
    diffs.displaced.flatMap fun pair => pair.1 ++ " -> ".toList ++ pair.2 ++ ['\n']

def writeIndex : Option UnreviewedDiffs :=
  match diffs.index with
  | none => some diffs
  | some path =>
    (diffs.directory.writeFile path diffs.indexText).map fun directory =>
      { diffs with directory := directory }

/-- Write the diffs of `files`, one after another. -/
def placeAll (files : List FileDiff) : Option UnreviewedDiffs :=
  files.foldlM (fun diffs file => place diffs file.name file.display) diffs

/-- Write the diffs of the paths that still have unreviewed lines. -/
def write (files : List FileDiff) : Option UnreviewedDiffs := do
  (← placeAll ⟨Folder.empty, []⟩ files).writeIndex

/-- Whether the other directory holds the same diffs at the same paths. -/
def sameLines (other : UnreviewedDiffs) : Bool := diffs.directory.files = other.directory.files

end UnreviewedDiffs

end ProgressiveReviewer.Unreviewed

/-! Where the diffs of a prompt lie: each at its source path when no diff before it is in the
way, and else at the top of the directory under a name of the reviewer's own. -/

namespace ProgressiveReviewer.Unreviewed

open Library Folder

inductive Place where
  | own
  | displaced (number : Nat)
  deriving DecidableEq

/-- A diff and where it lies. -/
structure Entry where
  name : List Char
  text : List Char
  place : Place

def Entry.path (entry : Entry) : List (List Char) :=
  match entry.place with
  | .own => (components entry.name).getD []
  | .displaced number => [displacedName number]

def Entry.file (entry : Entry) : List (List Char) × List Char := (entry.path, entry.text)

/-- The pair that the index lists the entry with. -/
def Entry.listed (entry : Entry) : Option (List Char × List Char) :=
  match entry.place with
  | .own => none
  | .displaced number => some (entry.name, displacedName number)

/-- The pairs of the index, for the displaced diffs in the order they were written. -/
def listedPairs (entries : List Entry) : List (List Char × List Char) :=
  entries.filterMap Entry.listed

@[simp] theorem listedPairs_own {entries : List Entry} {name text : List Char} :
    listedPairs (entries ++ [⟨name, text, .own⟩]) = listedPairs entries := by
  simp [listedPairs, Entry.listed]

@[simp] theorem listedPairs_displaced {entries : List Entry} {name text : List Char}
    {number : Nat} : listedPairs (entries ++ [⟨name, text, .displaced number⟩]) =
      listedPairs entries ++ [(name, displacedName number)] := by
  simp [listedPairs, Entry.listed]

/-- What keeps a diff from its source path: a name of the reviewer's own, the directory itself,
or another diff there, above it or below it. -/
def Hindered (before : List Entry) (name : List Char) (path : List (List Char)) : Prop :=
  reserved <+: name ∨ path = [] ∨
    ∃ entry ∈ before, entry.place = .own ∧ Overlap entry.path path

/-- The places of diffs that were written one after another. -/
inductive Laid : List Entry → Prop where
  | none : Laid []
  | own {before : List Entry} {name text : List Char} {path : List (List Char)} (laid : Laid before)
      (normal : components name = some path) (free : ¬ Hindered before name path) :
      Laid (before ++ [⟨name, text, .own⟩])
  | displaced {before : List Entry} {name text : List Char} {path : List (List Char)}
      (laid : Laid before) (normal : components name = some path)
      (hindered : Hindered before name path) :
      Laid (before ++ [⟨name, text, .displaced ((listedPairs before).length + 1)⟩])

section Names

variable {name : List Char} {path : List (List Char)}

theorem displacedName_injective : Function.Injective displacedName := by
  intro m n same
  simp only [displacedName, List.append_left_inj, List.append_right_inj] at same
  have values := congrArg (Nat.ofDigitChars 10 · 0) same
  simpa [Nat.ofDigitChars_ten_toDigits] using values

theorem reserved_displacedName (number : Nat) : reserved <+: displacedName number := by
  simp [displacedName, List.append_assoc]

theorem reserved_indexName : reserved <+: indexName := by decide

theorem displacedName_ne_indexName (number : Nat) : displacedName number ≠ indexName := by
  intro same
  have split : indexName = reserved ++ "index__".toList := by decide
  rw [split, displacedName, List.append_assoc, List.append_assoc, List.append_right_inj] at same
  have letters := congrArg List.head? same
  have starts : "displaced_".toList.head? = some 'd' := by decide
  rw [List.head?_append, starts] at letters
  exact absurd letters (by simp only [Option.some_or]; decide)

/-- The first part is how the name starts. -/
theorem starts_with_first {first : List Char} {rest : List (List Char)}
    (normal : components name = some (first :: rest)) : first <+: name := by
  have whole := @List.intercalate_splitOn _ name _ _ '/'
  simp only [components] at normal
  split_ifs at normal with outside
  simp only [Bool.or_eq_true, decide_eq_true_eq, not_or] at outside
  cases split : name.splitOn '/' with
  | nil => exact absurd split (List.splitOn_ne_nil _ _)
  | cons head tail =>
    rw [split] at whole normal outside
    cases tail with
    | nil =>
      have alone : head = name := by simpa using whole
      subst alone
      by_cases part : (head ≠ [] && head ≠ ['.']) = true
      · simp only [List.filter_cons, part, if_true, List.filter_nil, Option.some.injEq,
          List.cons.injEq] at normal
        exact normal.1 ▸ List.prefix_refl _
      · simp only [List.filter_cons, part] at normal
        cases normal
    | cons next more =>
      have starts : name = head ++ '/' :: ['/'].intercalate (next :: more) := by
        simpa [List.intercalate] using whole.symm
      have part : (head ≠ [] && head ≠ ['.']) = true := by
        simp only [ne_eq, Bool.and_eq_true, decide_eq_true_eq]
        refine ⟨fun empty => outside.1.1 ?_, fun dot => outside.1.2 (by simp [dot])⟩
        rw [starts, empty]
        rfl
      simp only [List.filter_cons, part, if_true, Option.some.injEq, List.cons.injEq] at normal
      rw [← normal.1, starts]
      exact List.prefix_append _ _

/-- A file at the top whose name is the reviewer's own overlaps no path of another name. -/
theorem not_overlap_top {top : List Char} (own : reserved <+: top)
    (normal : components name = some path) (below : path ≠ []) (free : ¬ reserved <+: name) :
    ¬ Overlap [top] path := by
  obtain ⟨first, rest, rfl⟩ := List.exists_cons_of_ne_nil below
  have differs : top ≠ first := fun same =>
    free ((same ▸ own).trans (starts_with_first normal))
  rintro (above | above)
  · exact differs (List.cons_prefix_cons.mp above).1
  · exact differs (List.cons_prefix_cons.mp above).1.symm

end Names

section Laid

variable {entries : List Entry} {entry : Entry}

theorem Entry.path_own {name text : List Char} {path : List (List Char)}
    (normal : components name = some path) : (⟨name, text, .own⟩ : Entry).path = path := by
  rw [Entry.path, normal, Option.getD_some]

/-- A diff at its source path has a name of its own. -/
theorem Laid.own_spec (laid : Laid entries) (mem : entry ∈ entries) (own : entry.place = .own) :
    components entry.name = some entry.path ∧ entry.path ≠ [] ∧ ¬ reserved <+: entry.name := by
  induction laid with
  | none => cases mem
  | displaced laid normal hindered ih =>
    rcases List.mem_append.mp mem with mem | mem
    · exact ih mem
    · rw [List.mem_singleton.mp mem] at own
      cases own
  | own laid normal free ih =>
    rcases List.mem_append.mp mem with mem | mem
    · exact ih mem
    · obtain rfl := List.mem_singleton.mp mem
      rw [Entry.path_own normal]
      exact ⟨normal, fun top => free (.inr (.inl top)), fun reserved => free (.inl reserved)⟩

/-- The displaced diffs are numbered in order. -/
theorem Laid.number_le (laid : Laid entries) (mem : entry ∈ entries) {number : Nat}
    (displaced : entry.place = .displaced number) :
    number ≤ (listedPairs entries).length := by
  induction laid with
  | none => cases mem
  | own laid normal free ih =>
    rcases List.mem_append.mp mem with mem | mem
    · simpa using ih mem
    · rw [List.mem_singleton.mp mem] at displaced
      cases displaced
  | displaced laid normal hindered ih =>
    rcases List.mem_append.mp mem with mem | mem
    · exact (ih mem).trans (by simp)
    · rw [List.mem_singleton.mp mem] at displaced
      cases displaced
      simp

/-- Nothing lies at the top under the next name that the reviewer gives, or under that of the
index. -/
theorem Laid.top_free (laid : Laid entries) {top : List Char} (own : reserved <+: top)
    (fresh : ∀ number ≤ (listedPairs entries).length, displacedName number ≠ top) :
    ∀ entry ∈ entries, ¬ Overlap entry.path [top] := by
  intro entry mem overlaps
  cases place : entry.place with
  | own =>
    obtain ⟨normal, below, free⟩ := laid.own_spec mem place
    exact not_overlap_top own normal below free overlaps.symm
  | displaced number =>
    have path : entry.path = [displacedName number] := by rw [Entry.path, place]
    have same : displacedName number = top := by
      rw [path] at overlaps
      rcases overlaps with above | above
      · exact (List.cons_prefix_cons.mp above).1
      · exact (List.cons_prefix_cons.mp above).1.symm
    exact fresh number (laid.number_le mem place) same

/-- A diff at its source path is apart from the displaced ones. -/
theorem hindered_of_overlap {name : List Char} {path : List (List Char)}
    (normal : components name = some path) (below : path ≠ []) (free : ¬ reserved <+: name) :
    (∃ entry ∈ entries, Overlap entry.path path) → Hindered entries name path := by
  rintro ⟨entry, mem, overlaps⟩
  cases place : entry.place with
  | own => exact .inr (.inr ⟨entry, mem, place, overlaps⟩)
  | displaced number =>
    have path : entry.path = [displacedName number] := by rw [Entry.path, place]
    rw [path] at overlaps
    exact absurd overlaps (not_overlap_top (reserved_displacedName number) normal below free)

/-- No two diffs lie at one place. -/
theorem Laid.distinct (laid : Laid entries) : (entries.map Entry.path).Nodup := by
  induction laid with
  | none => exact List.nodup_nil
  | own laid normal free ih =>
    rw [List.map_append, List.map_singleton, Entry.path_own normal]
    refine List.nodup_append.mpr ⟨ih, by simp, ?_⟩
    simp only [List.forall_mem_map, List.mem_singleton, forall_eq]
    intro entry held same
    have clear := not_or.mp (not_or.mp free).2
    exact free (hindered_of_overlap normal clear.1 (not_or.mp free).1
      ⟨entry, held, .inl (same ▸ List.prefix_refl _)⟩)
  | displaced laid normal hindered ih =>
    rw [List.map_append, List.map_singleton]
    refine List.nodup_append.mpr ⟨ih, by simp, ?_⟩
    simp only [List.forall_mem_map, List.mem_singleton, forall_eq]
    intro entry held same
    refine laid.top_free (reserved_displacedName _) (fun number le equal => ?_) entry held
      (.inl (by rw [same]; exact List.prefix_refl _))
    have equal := displacedName_injective equal
    omega

/-- No diff lies at the index. -/
theorem Laid.index_free (laid : Laid entries) : ∀ entry ∈ entries, ¬ Overlap entry.path [indexName] :=
  laid.top_free reserved_indexName fun number _ => displacedName_ne_indexName number

end Laid

end ProgressiveReviewer.Unreviewed
