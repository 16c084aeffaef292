import ProgressiveReviewer.Library.SortedMap
import Mathlib.Data.List.Infix
import Mathlib.Data.List.Lex

/-! A folder of named texts: files and the folders that hold them, each under its path from
the top. A path is a file or a folder and never both, and a file lies in folders only. -/

namespace ProgressiveReviewer.Library

namespace Folder

/-- The paths that `path` goes through below the top, itself included. -/
def steps {α : Type} (path : List α) : List (List α) := path.inits.tail

theorem mem_steps {α : Type} {path step : List α} :
    step ∈ steps path ↔ step <+: path ∧ step ≠ [] := by
  rw [← List.mem_inits]
  cases path with
  | nil => simp [steps]
  | cons first rest =>
    simp only [steps, List.inits_cons, List.tail_cons, List.mem_cons, List.mem_map]
    constructor
    · rintro ⟨inner, held, rfl⟩
      exact ⟨.inr ⟨inner, held, rfl⟩, List.cons_ne_nil _ _⟩
    · rintro ⟨rfl | held, nonempty⟩
      · exact absurd rfl nonempty
      · exact held

/-- What a path leads through above it is what leads to its parent. -/
theorem prefix_dropLast {α : Type} {path step : List α} :
    step <+: path.dropLast ∧ path ≠ [] ↔ step <+: path ∧ step ≠ path := by
  rcases path.eq_nil_or_concat with rfl | ⟨parent, name, rfl⟩
  · simp
  · rw [List.concat_eq_append, List.dropLast_concat, List.prefix_concat_iff]
    constructor
    · rintro ⟨above, -⟩
      exact ⟨.inr above, fun same => absurd above.length_le (by simp [same])⟩
    · rintro ⟨rfl | above, differs⟩
      · exact absurd rfl differs
      · exact ⟨above, by simp⟩

end Folder

variable {κ τ : Type} [LinearOrder κ]

structure Folder (κ τ : Type) [LinearOrder κ] where
  files : SortedMap (List κ) τ
  /-- The folders that were made below the top. -/
  made : List (List κ)

namespace Folder

def empty : Folder κ τ := ⟨.empty, []⟩

def isFile (folder : Folder κ τ) (path : List κ) : Bool := folder.files.contains path

def isFolder (folder : Folder κ τ) (path : List κ) : Bool :=
  decide (path = []) || folder.made.contains path

def isThere (folder : Folder κ τ) (path : List κ) : Bool :=
  folder.isFile path || folder.isFolder path

/-- Make the folder at `path` and those above it, unless a file is in the way. -/
def makeAll (folder : Folder κ τ) (path : List κ) : Option (Folder κ τ) :=
  if (steps path).any folder.isFile then none
  else some { folder with made := folder.made ++ steps path }

/-- Write a file in a folder that is there. -/
def writeFile (folder : Folder κ τ) (path : List κ) (text : τ) : Option (Folder κ τ) :=
  if folder.isFolder path || !folder.isFolder path.dropLast then none
  else some { folder with files := folder.files.insert path text }

/-- Write a file and the folders that hold it. -/
def store (folder : Folder κ τ) (path : List κ) (text : τ) : Option (Folder κ τ) := do
  (← folder.makeAll path.dropLast).writeFile path text

/-- One of the two paths leads through the other. -/
def Overlap (path other : List κ) : Prop := path <+: other ∨ other <+: path

/-- The folder holds the texts of `stored`, each at its path, and no other. -/
structure Holds (folder : Folder κ τ) (stored : List (List κ × τ)) : Prop where
  files : ∀ path text, folder.files.lookup path = some text ↔ (path, text) ∈ stored
  folders : ∀ path, folder.isFolder path = true ↔
    path = [] ∨ ∃ file ∈ stored, path <+: file.1 ∧ path ≠ file.1
  below : ∀ file ∈ stored, file.1 ≠ []

theorem holds_empty : Holds (empty : Folder κ τ) [] where
  files path text := by simp [empty]
  folders path := by simp [isFolder, empty]
  below := by simp

variable {folder : Folder κ τ} {stored : List (List κ × τ)} {path : List κ} {text : τ}

theorem Holds.isFile (holds : folder.Holds stored) :
    folder.isFile path = true ↔ ∃ file ∈ stored, file.1 = path := by
  simp only [Folder.isFile, SortedMap.contains_iff, holds.files]
  constructor
  · rintro ⟨text, mem⟩
    exact ⟨_, mem, rfl⟩
  · rintro ⟨file, mem, rfl⟩
    exact ⟨file.2, mem⟩

/-- What is at a path, above it or below it overlaps the path. -/
theorem Holds.there_or_above (holds : folder.Holds stored) (below : path ≠ []) :
    (folder.isThere path || (steps path.dropLast).any folder.isFile) = true ↔
      ∃ file ∈ stored, Overlap file.1 path := by
  simp only [isThere, Bool.or_eq_true, List.any_eq_true, holds.isFile, holds.folders, mem_steps]
  constructor
  · rintro ((⟨file, mem, rfl⟩ | top | ⟨file, mem, inside, -⟩) | ⟨step, ⟨above, -⟩, file, mem, rfl⟩)
    · exact ⟨file, mem, .inl (List.prefix_refl _)⟩
    · exact absurd top below
    · exact ⟨file, mem, .inr inside⟩
    · exact ⟨file, mem, .inl (above.trans (List.dropLast_prefix path))⟩
  · rintro ⟨file, mem, above | inside⟩
    · by_cases same : file.1 = path
      · exact .inl (.inl ⟨file, mem, same⟩)
      · exact .inr ⟨file.1, ⟨(prefix_dropLast.mpr ⟨above, same⟩).1, holds.below file mem⟩,
          file, mem, rfl⟩
    · by_cases same : path = file.1
      · exact .inl (.inl ⟨file, mem, same.symm⟩)
      · exact .inl (.inr (.inr ⟨file, mem, inside, same⟩))

/-- A text that overlaps no other is stored, and the others stay as they are. -/
theorem Holds.store (text : τ) (holds : folder.Holds stored) (below : path ≠ [])
    (apart : ∀ file ∈ stored, ¬ Overlap file.1 path) :
    ∃ after, folder.store path text = some after ∧ after.Holds (stored ++ [(path, text)]) := by
  have free : ¬ ∃ file ∈ stored, Overlap file.1 path := by simpa using apart
  rw [← holds.there_or_above below, isThere, Bool.or_eq_true, Bool.or_eq_true, not_or,
    not_or] at free
  obtain ⟨⟨absent, missing⟩, clear⟩ := free
  have unmade : path ∉ steps path.dropLast := fun mem =>
    (prefix_dropLast.mp ⟨(mem_steps.mp mem).1, below⟩).2 rfl
  have parent : path.dropLast = [] ∨ path.dropLast ∈ steps path.dropLast := by
    by_cases top : path.dropLast = []
    · exact .inl top
    · exact .inr (mem_steps.mpr ⟨List.prefix_refl _, top⟩)
  simp only [isFolder, Bool.or_eq_true, decide_eq_true_eq, List.contains_iff_mem, not_or] at missing
  refine ⟨⟨folder.files.insert path text, folder.made ++ steps path.dropLast⟩, ?_, ?_, ?_, ?_⟩
  · simpa [Folder.store, makeAll, clear, writeFile, isFolder, below, missing.2, unmade] using
      fun top _ => parent.resolve_left top
  · intro path' text'
    rw [SortedMap.lookup_insert, List.mem_append, List.mem_singleton]
    split_ifs with same
    · have fresh : (path', text') ∉ stored := fun mem =>
        absent (holds.isFile.mpr ⟨_, mem, same.symm⟩)
      simp [fresh, same, eq_comm]
    · simp [holds.files, Ne.symm same]
  · intro path'
    have folders := holds.folders path'
    simp only [isFolder, Bool.or_eq_true, decide_eq_true_eq, List.contains_iff_mem,
      List.mem_append, mem_steps] at folders ⊢
    rw [← or_assoc, folders]
    by_cases top : path' = []
    · simp [top]
    · have above := @prefix_dropLast _ path path'
      simp only [top, below, false_or, not_false_eq_true, and_true, ne_eq, or_and_right,
        exists_or, exists_eq_left, List.mem_singleton] at above ⊢
      rw [above]
  · intro file mem
    rcases List.mem_append.mp mem with mem | mem
    · exact holds.below file mem
    · simpa [List.mem_singleton.mp mem] using below

/-- At the top no folder is made. -/
theorem store_top (name : κ) : folder.store [name] text = folder.writeFile [name] text := by
  simp [Folder.store, makeAll, steps]

end Folder

end ProgressiveReviewer.Library
