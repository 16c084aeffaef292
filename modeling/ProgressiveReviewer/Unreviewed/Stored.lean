import ProgressiveReviewer.Unreviewed.Laid
import ProgressiveReviewer.Unreviewed.Numbered
import Mathlib.Data.List.Nodup

/-! What a prompt's directory holds once it is written: every diff whole at one place, the
index of the displaced ones, and nothing else. -/

namespace ProgressiveReviewer.Unreviewed

open Library Folder

/-- The diffs of `entries` are in the directory, and no other file. -/
structure Lies (diffs : UnreviewedDiffs) (entries : List Entry) : Prop where
  laid : Laid entries
  holds : diffs.directory.Holds (entries.map Entry.file)
  displaced : diffs.displaced = listedPairs entries

/-- The texts of diffs tell the diffs. -/
theorem perm_shown {files files' : List FileDiff} (lines : ∀ file ∈ files ++ files', file.OfLines)
    (texts : (files.map FileDiff.display).Perm (files'.map FileDiff.display)) :
    (files.map FileDiff.shown).Perm (files'.map FileDiff.shown) := by
  classical
  let read : List Char → FileDiff := fun text =>
    if h : ∃ file : FileDiff, file.OfLines ∧ file.display = text then h.choose.shown else ⟨[], []⟩
  have reads : ∀ file : FileDiff, file.OfLines → read file.display = file.shown := by
    intro file clean
    have h : ∃ file' : FileDiff, file'.OfLines ∧ file'.display = file.display := ⟨file, clean, rfl⟩
    simp only [read, dif_pos h]
    exact FileDiff.display_injective h.choose_spec.1 clean h.choose_spec.2
  have back : ∀ part : List FileDiff, (∀ file ∈ part, file.OfLines) →
      (part.map FileDiff.display).map read = part.map FileDiff.shown := by
    intro part clean
    rw [List.map_map]
    exact List.map_congr_left fun file mem => reads file (clean file mem)
  obtain ⟨first, second⟩ := List.forall_mem_append.mp lines
  simpa only [back files first, back files' second] using texts.map read

namespace UnreviewedDiffs

variable {diffs after : UnreviewedDiffs} {entries : List Entry} {name text : List Char}
  {path : List (List Char)}

/-- A path that is taken hinders a diff of that path, and no other hindrance is left. -/
theorem taken_spec (lies : Lies diffs entries) (normal : components name = some path)
    (free : ¬ reserved <+: name) :
    (diffs.taken name path = true → Hindered entries name path) ∧
      (endsInside name = false → Hindered entries name path → diffs.taken name path = true) := by
  by_cases below : path = []
  · have top : diffs.directory.isFolder path = true := by simp [isFolder, below]
    exact ⟨fun _ => .inr (.inl below), fun _ _ => by simp [taken, isThere, top]⟩
  have there := lies.holds.there_or_above below
  have overlapping : (∃ file ∈ entries.map Entry.file, Overlap file.1 path) ↔
      ∃ entry ∈ entries, Overlap entry.path path := by simp [Entry.file]
  rw [overlapping] at there
  constructor
  · intro taken
    refine hindered_of_overlap normal below free (there.mp ?_)
    simp only [UnreviewedDiffs.taken, isThere, Bool.or_eq_true] at taken ⊢
    exact taken.imp_left fun here => by
      split at here
      · exact .inr here
      · simpa using here
  · rintro file (reserved | top | ⟨entry, mem, -, overlaps⟩)
    · exact absurd reserved free
    · exact absurd top below
    · simpa [taken, file] using there.mpr ⟨entry, mem, overlaps⟩

theorem writeAt_eq_store (file : endsInside name = false) :
    diffs.writeAt name path text =
      (diffs.directory.store path text).map fun directory => { diffs with directory := directory } := by
  simp only [writeAt, file, Folder.store, Option.bind_eq_bind, Bool.false_eq_true, if_false,
    Option.map_bind]
  congr 1
  funext parents
  rw [Function.comp_apply, Option.map_eq_bind]
  rfl

theorem writeAt_inside (inside : endsInside name = true) : diffs.writeAt name path text = none := by
  simp only [writeAt, inside]
  cases diffs.directory.makeAll path.dropLast <;> rfl

/-- A diff that nothing hinders is stored at its source path. -/
theorem writeAt_free (text : List Char) (lies : Lies diffs entries) (normal : components name = some path)
    (free : ¬ Hindered entries name path) (file : endsInside name = false) :
    ∃ after, diffs.writeAt name path text = some after ∧
      Lies after (entries ++ [⟨name, text, .own⟩]) := by
  simp only [Hindered, not_or] at free
  obtain ⟨unreserved, below, apart⟩ := free
  have clear : ∀ file ∈ entries.map Entry.file, ¬ Overlap file.1 path := by
    intro file mem overlaps
    obtain ⟨entry, held, rfl⟩ := List.mem_map.mp mem
    rcases hindered_of_overlap normal below unreserved ⟨entry, held, overlaps⟩ with h | h | h
    · exact unreserved h
    · exact below h
    · exact apart h
  obtain ⟨directory, stored, holds⟩ := lies.holds.store text below clear
  refine ⟨{ diffs with directory := directory }, by rw [writeAt_eq_store file, stored]; rfl, ?_⟩
  refine ⟨.own lies.laid normal (by simp [Hindered, unreserved, below, apart]), ?_, ?_⟩
  · simpa [Entry.file, Entry.path_own normal] using holds
  · simpa using lies.displaced

/-- A hindered diff is stored under the next name of the reviewer's own. -/
theorem writeFile_displaced (text : List Char) (lies : Lies diffs entries)
    (normal : components name = some path) (hindered : Hindered entries name path) :
    ∃ directory, diffs.directory.writeFile [displacedName (diffs.displaced.length + 1)] text =
        some directory ∧
      Lies ⟨directory, diffs.displaced ++ [(name, displacedName (diffs.displaced.length + 1))]⟩
        (entries ++ [⟨name, text, .displaced (diffs.displaced.length + 1)⟩]) := by
  have apart := lies.laid.top_free (reserved_displacedName (diffs.displaced.length + 1))
    fun number le same => by
      have equal := displacedName_injective same
      rw [lies.displaced] at equal
      omega
  have clear : ∀ file ∈ entries.map Entry.file,
      ¬ Overlap file.1 [displacedName (diffs.displaced.length + 1)] := by
    intro file mem
    obtain ⟨entry, held, rfl⟩ := List.mem_map.mp mem
    exact apart entry held
  obtain ⟨directory, stored, holds⟩ := lies.holds.store text (List.cons_ne_nil _ _) clear
  rw [store_top] at stored
  refine ⟨directory, stored, ?_, ?_, ?_⟩
  · have laid := @Laid.displaced _ _ text _ lies.laid normal hindered
    rwa [← lies.displaced] at laid
  · simpa [Entry.file, Entry.path] using holds
  · simpa using lies.displaced

/-- A diff goes to its source path only when that is free, and elsewhere only when it is not. -/
theorem own_or_hindered (lies : Lies diffs entries) (normal : components name = some path) :
    ((!reserved.isPrefixOf name && !diffs.taken name path) = true ∧
        (endsInside name = false → ¬ Hindered entries name path)) ∨
      ((!reserved.isPrefixOf name && !diffs.taken name path) = false ∧
        Hindered entries name path) := by
  by_cases reserve : reserved <+: name
  · exact .inr ⟨by simp [List.isPrefixOf_iff_prefix.mpr reserve], .inl reserve⟩
  · have other : reserved.isPrefixOf name = false := by
      rwa [← Bool.not_eq_true, List.isPrefixOf_iff_prefix]
    obtain ⟨hinders, blocks⟩ := taken_spec lies normal reserve
    cases taken : diffs.taken name path with
    | true => exact .inr ⟨by simp, hinders taken⟩
    | false => exact .inl ⟨by simp [other], fun file hindered => by simp [blocks file hindered] at taken⟩

/-- One more diff lies in the directory, and every other where it lay. -/
theorem place_lies (lies : Lies diffs entries) (placed : diffs.place name text = some after) :
    ∃ place, Lies after (entries ++ [⟨name, text, place⟩]) := by
  simp only [place, Option.bind_eq_bind, Option.bind_eq_some_iff] at placed
  obtain ⟨path, normal, placed⟩ := placed
  rcases own_or_hindered lies normal with ⟨own, free⟩ | ⟨own, hindered⟩
  · rw [if_pos own] at placed
    cases file : endsInside name with
    | true => simp [writeAt_inside file] at placed
    | false =>
      obtain ⟨stored, written, lies⟩ := writeAt_free text lies normal (free file) file
      obtain rfl := Option.some.inj (written.symm.trans placed)
      exact ⟨_, lies⟩
  · rw [if_neg (by simp [own])] at placed
    obtain ⟨directory, stored, lies⟩ := writeFile_displaced text lies normal hindered
    simp only [stored, Option.bind_some, pure, Option.some.injEq] at placed
    exact ⟨_, placed ▸ lies⟩

/-- The diff of a file below the directory always finds a place. -/
theorem place_isSome (text : List Char) (lies : Lies diffs entries)
    (normal : components name = some path) (file : endsInside name = false) :
    ∃ after, diffs.place name text = some after := by
  simp only [place, normal, Option.bind_eq_bind, Option.bind_some]
  rcases own_or_hindered lies normal with ⟨own, free⟩ | ⟨own, hindered⟩
  · rw [if_pos own]
    obtain ⟨stored, written, -⟩ := writeAt_free text lies normal (free file) file
    exact ⟨stored, written⟩
  · rw [if_neg (by simp [own])]
    obtain ⟨directory, stored, -⟩ := writeFile_displaced text lies normal hindered
    exact ⟨_, by rw [stored]; rfl⟩

theorem placeAll_lies {files : List FileDiff} (lies : Lies diffs entries)
    (placed : diffs.placeAll files = some after) :
    ∃ more, Lies after (entries ++ more) ∧
      more.map (fun entry => (entry.name, entry.text)) =
        files.map fun file => (file.name, file.display) := by
  induction files generalizing diffs entries with
  | nil =>
    obtain rfl : diffs = after := by simpa [placeAll] using placed
    exact ⟨[], by simpa using lies, rfl⟩
  | cons file files ih =>
    simp only [placeAll, List.foldlM_cons, Option.bind_eq_bind, Option.bind_eq_some_iff] at placed
    obtain ⟨next, first, rest⟩ := placed
    obtain ⟨place, lies⟩ := place_lies lies first
    obtain ⟨more, lies, same⟩ := ih lies rest
    exact ⟨_ :: more, by simpa using lies, by simpa using same⟩

theorem placeAll_isSome {files : List FileDiff} (lies : Lies diffs entries)
    (proper : ∀ file ∈ files, (components file.name).isSome ∧ endsInside file.name = false) :
    ∃ after, diffs.placeAll files = some after := by
  induction files generalizing diffs entries with
  | nil => exact ⟨diffs, rfl⟩
  | cons file files ih =>
    obtain ⟨first, proper⟩ := List.forall_mem_cons.mp proper
    obtain ⟨path, normal⟩ := Option.isSome_iff_exists.mp first.1
    obtain ⟨next, placed⟩ := place_isSome file.display lies normal first.2
    obtain ⟨place, lies⟩ := place_lies lies placed
    obtain ⟨after, rest⟩ := ih lies proper
    exact ⟨after, by simpa [placeAll, placed] using rest⟩

theorem lies_nil : Lies ⟨Folder.empty, []⟩ [] := ⟨.none, holds_empty, rfl⟩

/-- The files of a written directory. -/
structure Written (diffs : UnreviewedDiffs) (files : List FileDiff) (entries : List Entry) :
    Prop where
  /-- One entry for every diff, in order, with its whole text. -/
  whole : entries.map (fun entry => (entry.name, entry.text)) =
    files.map fun file => (file.name, file.display)
  /-- A diff lies at its source path unless one before it is in the way. -/
  laid : Laid entries
  distinct : (entries.map Entry.path).Nodup
  unindexed : [indexName] ∉ entries.map Entry.path
  displaced : diffs.displaced = listedPairs entries
  /-- The directory holds the diffs and, when some are displaced, the index of those. -/
  holds : ∀ path text, diffs.directory.files.lookup path = some text ↔
    (path, text) ∈ entries.map Entry.file ∨
      diffs.displaced ≠ [] ∧ path = [indexName] ∧ text = diffs.indexText

/-- The index is one more file, of a name that no diff has. -/
theorem writeIndex_written {files : List FileDiff} (lies : Lies diffs entries)
    (same : entries.map (fun entry => (entry.name, entry.text)) =
      files.map fun file => (file.name, file.display)) :
    ∃ after, diffs.writeIndex = some after ∧ Written after files entries := by
  have unindexed : [indexName] ∉ entries.map Entry.path := by
    intro mem
    obtain ⟨entry, held, same⟩ := List.mem_map.mp mem
    exact lies.laid.index_free entry held (.inl (same ▸ List.prefix_refl _))
  by_cases none : diffs.displaced = []
  · refine ⟨diffs, by simp [writeIndex, index, none],
      same, lies.laid, lies.laid.distinct, unindexed, lies.displaced, fun path text => ?_⟩
    simpa [none] using lies.holds.files path text
  · have clear : ∀ file ∈ entries.map Entry.file, ¬ Overlap file.1 [indexName] := by
      intro file mem
      obtain ⟨entry, held, rfl⟩ := List.mem_map.mp mem
      exact lies.laid.index_free entry held
    obtain ⟨directory, stored, holds⟩ :=
      lies.holds.store diffs.indexText (List.cons_ne_nil _ _) clear
    rw [store_top] at stored
    refine ⟨{ diffs with directory := directory }, by simp [writeIndex, index, none, stored],
      same, lies.laid, lies.laid.distinct, unindexed, lies.displaced, fun path text => ?_⟩
    rw [holds.files path text, List.mem_append, List.mem_singleton, Prod.mk.injEq]
    exact or_congr_right ⟨fun found => ⟨none, found⟩, And.right⟩

theorem write_written {files : List FileDiff} (written : write files = some diffs) :
    ∃ entries, Written diffs files entries := by
  simp only [write, Option.bind_eq_bind, Option.bind_eq_some_iff] at written
  obtain ⟨placed, all, indexed⟩ := written
  obtain ⟨entries, lies, same⟩ := placeAll_lies lies_nil all
  obtain ⟨after, stored, written⟩ := writeIndex_written lies (by simpa using same)
  obtain rfl := Option.some.inj (stored.symm.trans indexed)
  exact ⟨_, written⟩

/-- The diffs of files below the directory are all written, each whole at a place of its own:
at its source path unless a diff before it is in the way, and else where the index says. -/
theorem write_stores (files : List FileDiff)
    (proper : ∀ file ∈ files, (components file.name).isSome ∧ endsInside file.name = false) :
    ∃ diffs entries, write files = some diffs ∧ Written diffs files entries := by
  obtain ⟨placed, all⟩ := placeAll_isSome lies_nil proper
  obtain ⟨entries, lies, same⟩ := placeAll_lies lies_nil all
  obtain ⟨after, stored, written⟩ := writeIndex_written lies (by simpa using same)
  exact ⟨after, _, by simp [write, all, stored], written⟩

/-- A file that became a directory: two diffs that overlap. -/
def replaced : List FileDiff := [⟨"docs".toList, []⟩, ⟨"docs/guide.md".toList, []⟩]

theorem write_stores_replaced :
    ∃ diffs entries, write replaced = some diffs ∧ Written diffs replaced entries :=
  write_stores replaced (by decide)

theorem Written.nodup_files {files : List FileDiff} (written : Written diffs files entries) :
    (entries.map Entry.file).Nodup := by
  refine List.Nodup.of_map Prod.fst ?_
  simpa [Entry.file, Function.comp_def] using written.distinct

/-- What lies beside the index is a diff. -/
theorem Written.mem_file {files : List FileDiff} (written : Written diffs files entries)
    {file : List (List Char) × List Char} : file ∈ entries.map Entry.file ↔
      diffs.directory.files.lookup file.1 = some file.2 ∧ file.1 ≠ [indexName] := by
  rw [written.holds]
  constructor
  · intro mem
    refine ⟨.inl mem, fun index => written.unindexed ?_⟩
    obtain ⟨entry, held, rfl⟩ := List.mem_map.mp mem
    exact List.mem_map.mpr ⟨entry, held, index⟩
  · rintro ⟨mem | index, other⟩
    · exact mem
    · exact absurd index.2.1 other

/-- Two directories that hold the same lines hold the same diffs. -/
theorem sameLines_shown (files files' : List FileDiff) (diffs diffs' : UnreviewedDiffs)
    (lines : ∀ file ∈ files ++ files', file.OfLines)
    (written : write files = some diffs) (written' : write files' = some diffs')
    (same : diffs.sameLines diffs' = true) :
    (files.map FileDiff.shown).Perm (files'.map FileDiff.shown) := by
  obtain ⟨entries, written⟩ := write_written written
  obtain ⟨entries', written'⟩ := write_written written'
  have stored : (entries.map Entry.file).Perm (entries'.map Entry.file) :=
    (List.perm_ext_iff_of_nodup written.nodup_files written'.nodup_files).mpr fun file => by
      have files : diffs.directory.files = diffs'.directory.files := of_decide_eq_true same
      rw [written.mem_file, written'.mem_file, files]
  have texts : ∀ {diffs : UnreviewedDiffs} {files entries}, Written diffs files entries →
      (entries.map Entry.file).map Prod.snd = files.map FileDiff.display := by
    intro diffs files entries written
    have whole := congrArg (List.map Prod.snd) written.whole
    simpa [Entry.file, Function.comp_def] using whole
  have displays := stored.map Prod.snd
  rw [texts written, texts written'] at displays
  exact perm_shown lines displays


/-- Two files that do not overlap, in either order. -/
def apart : List FileDiff := [⟨['a'], []⟩, ⟨['b'], []⟩]

theorem apart_isSome :
    (write apart).isSome = true ∧ (write apart.reverse).isSome = true := by
  decide +kernel

theorem sameLines_shown_reverse :
    (apart.map FileDiff.shown).Perm (apart.reverse.map FileDiff.shown) := by
  have same : ((write apart).get apart_isSome.1).sameLines
      ((write apart.reverse).get apart_isSome.2) = true := by
    decide +kernel
  refine sameLines_shown apart apart.reverse _ _ ?_ (Option.some_get apart_isSome.1).symm
    (Option.some_get apart_isSome.2).symm same
  unfold FileDiff.OfLines
  decide

end UnreviewedDiffs

end ProgressiveReviewer.Unreviewed
