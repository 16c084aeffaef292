import Mathlib.Data.Int.ConditionallyCompleteOrder
import Mathlib.Data.List.Induction
import Mathlib.Order.WithBot
import ProgressiveReviewer.Library.Latest
import ProgressiveReviewer.Marks.Stamps

/-! Merging the marks of several workspaces keeps the latest mark of each path. -/

namespace ProgressiveReviewer.Marks

open Library Hunks

namespace ReviewStore

/-- When the mark in a file was written. -/
def instant (rfc3339 : String → Option Int) (content : FileContent) : WithBot Int :=
  (markTime content).bind rfc3339

/-- The record a workspace kept for a file. -/
def keptBy (old : WorkspaceMarks) (unit : ReviewUnit) (name : String) : Option FileContent :=
  (old.lookup unit).bind fun records => records.lookup name

/-- Merge the marks of one workspace where every shared file can be read. -/
def mergedMarks (rfc3339 : String → Option Int) (disk : Disk)
    (source : WorkspaceMarks × (ReviewUnit → String)) : Disk :=
  disk.after (mergeMarks rfc3339 (fun _ _ => true) source.2 disk source.1).steps

variable {rfc3339 : String → Option Int} {disk : Disk} {unit : ReviewUnit} {name : String}
  {stamps : ReviewUnit → String}

theorem replaces_iff {content : FileContent} {time : String}
    (written : markTime content = some time) (timed : instant rfc3339 content ≠ ⊥)
    (keptTimed : ∀ kept, disk.record unit name = some kept → instant rfc3339 kept ≠ ⊥) :
    replaces rfc3339 (fun _ _ => true) disk unit name time = true ↔
      ∀ kept, disk.record unit name = some kept →
        instant rfc3339 kept < instant rfc3339 content := by
  obtain ⟨moment, known⟩ : ∃ moment, rfc3339 time = some moment := by
    rw [instant, written] at timed
    exact Option.ne_none_iff_exists'.mp timed
  have now : instant rfc3339 content = ((moment : Int) : WithBot Int) := by
    rw [instant, written]; exact known
  unfold replaces
  simp only [if_true]
  cases found : disk.record unit name with
  | none => simp
  | some kept =>
    obtain ⟨earlier, was⟩ := WithBot.ne_bot_iff_exists.mp (keptTimed kept found)
    obtain ⟨text, writtenThen, read⟩ : ∃ text, markTime kept = some text ∧
        rfc3339 text = some earlier := Option.bind_eq_some_iff.mp was.symm
    simp only [Option.bind_some, writtenThen, Option.all_some, later, known, read,
      decide_eq_true_eq, Option.some.injEq, forall_eq', now, ← was, WithBot.coe_lt_coe]

theorem record_mergeEntry {entry : String × FileContent}
    (named : isTemporary entry.1 = false) (timed : instant rfc3339 entry.2 ≠ ⊥)
    (keptTimed : ∀ kept, disk.record unit entry.1 = some kept → instant rfc3339 kept ≠ ⊥) :
    (disk.after (mergeEntry rfc3339 (fun _ _ => true) disk unit entry).steps).record unit entry.1 =
      keepLater (instant rfc3339) (disk.record unit entry.1) (some entry.2) := by
  obtain ⟨time, written⟩ : ∃ time, markTime entry.2 = some time := by
    refine Option.ne_none_iff_exists'.mp fun none => timed ?_
    rw [instant, none]; rfl
  have replaced := replaces_iff written timed keptTimed
  unfold mergeEntry
  rw [if_neg (by simp [named])]
  simp only [written]
  split_ifs with replace
  · have put : (disk.after (.other "read review mark" ::
        atomicWrite "merge review mark" unit entry.1 entry.2)).record unit entry.1 =
          some entry.2 := by
      simp only [atomicWrite, prepareWrite, Disk.after, List.cons_append, List.nil_append,
        List.foldl_cons, List.foldl_nil, Disk.record_apply, FileStep.touches, FileStep.leaves,
        reduceCtorEq, if_false, if_true]
    rw [put]
    cases found : disk.record unit entry.1 with
    | none => rfl
    | some kept => exact (if_pos (replaced.mp replace kept found)).symm
  · have stays : (disk.after [.other "read review mark"]).record unit entry.1 =
      disk.record unit entry.1 := rfl
    rw [stays]
    cases found : disk.record unit entry.1 with
    | none => exact absurd (replaced.mpr fun kept same => by cases found.symm.trans same) replace
    | some kept =>
      refine (if_neg fun before => replace (replaced.mpr fun other same => ?_)).symm
      exact Option.some.inj (found.symm.trans same) ▸ before

theorem record_mergeEntries {entries : List (String × FileContent)}
    (sorted : entries.Pairwise fun a b => a.1 < b.1) (named : isTemporary name = false)
    (timed : ∀ entry ∈ entries, entry.1 = name → instant rfc3339 entry.2 ≠ ⊥)
    (keptTimed : ∀ kept, disk.record unit name = some kept → instant rfc3339 kept ≠ ⊥) :
    (disk.after (mergeEntries rfc3339 (fun _ _ => true) unit entries disk).steps).record unit name =
      keepLater (instant rfc3339) (disk.record unit name)
        ((entries.find? fun entry => entry.1 = name).map Prod.snd) := by
  induction entries generalizing disk with
  | nil => rfl
  | cons entry rest ih =>
    obtain ⟨below, sorted⟩ := List.pairwise_cons.mp sorted
    obtain ⟨first, timed⟩ := List.forall_mem_cons.mp timed
    rw [mergeEntries, Disk.after_append]
    by_cases same : entry.1 = name
    · subst same
      rw [List.find?_cons_of_pos (by simp), Option.map_some, ← record_mergeEntry named (first rfl)
        keptTimed]
      refine Disk.record_after fun step mem touched => ?_
      have again := touched_mergeEntries.subset (List.mem_filterMap.mpr ⟨step, mem, touched⟩)
      obtain ⟨other, later, equal⟩ := List.mem_map.mp again
      exact (below other later).ne (congrArg Prod.snd equal).symm
    · have kept : (disk.after (mergeEntry rfc3339 (fun _ _ => true) disk unit entry).steps).record
          unit name = disk.record unit name := by
        refine Disk.record_after fun step mem touched => ?_
        have here := touched_mergeEntry.subset (List.mem_filterMap.mpr ⟨step, mem, touched⟩)
        exact same (congrArg Prod.snd (List.mem_singleton.mp here)).symm
      rw [ih sorted timed (by rwa [kept]), kept, List.find?_cons_of_neg (by simpa using same)]

theorem record_mergeUnit {records : SortedMap String FileContent}
    (valid : validateReviewUnit unit = .ok ()) (named : isTemporary name = false)
    (timed : ∀ content, records.lookup name = some content → instant rfc3339 content ≠ ⊥)
    (keptTimed : ∀ kept, disk.record unit name = some kept → instant rfc3339 kept ≠ ⊥) :
    (disk.after (mergeUnit rfc3339 (fun _ _ => true) stamps disk unit records).steps).record unit
        name = keepLater (instant rfc3339) (disk.record unit name) (records.lookup name) := by
  have read : ∀ entry ∈ records.entries, entry.1 = name → instant rfc3339 entry.2 ≠ ⊥ :=
    fun entry mem same => timed entry.2 (SortedMap.lookup_eq_some.mpr (same ▸ mem))
  have untouched : ∀ changed : Bool, ∀ step ∈ (if changed = true then
      stampMarks unit (stamps unit) else []), step.touches ≠ some (unit, name) := by
    intro changed step mem
    split_ifs at mem
    · simp only [stampMarks, List.mem_cons, List.not_mem_nil, or_false] at mem
      rcases mem with rfl | rfl | rfl | rfl <;> (intro same; cases same)
    · cases mem
  unfold mergeUnit
  rw [valid]
  dsimp only
  rw [Disk.after_append, Disk.record_after (untouched _), Disk.after_append]
  exact record_mergeEntries records.sorted named read keptTimed

theorem record_mergeUnits {old : List (ReviewUnit × SortedMap String FileContent)}
    (sorted : old.Pairwise fun a b => a.1 < b.1) (valid : validateReviewUnit unit = .ok ())
    (named : isTemporary name = false)
    (timed : ∀ records ∈ old, records.1 = unit → ∀ content,
      records.2.lookup name = some content → instant rfc3339 content ≠ ⊥)
    (keptTimed : ∀ kept, disk.record unit name = some kept → instant rfc3339 kept ≠ ⊥) :
    (disk.after (mergeUnits rfc3339 (fun _ _ => true) stamps old disk).steps).record unit name =
      keepLater (instant rfc3339) (disk.record unit name)
        (((old.find? fun records => records.1 = unit).map Prod.snd).bind
          fun records => records.lookup name) := by
  induction old generalizing disk with
  | nil => rfl
  | cons records rest ih =>
    obtain ⟨below, sorted⟩ := List.pairwise_cons.mp sorted
    obtain ⟨first, timed⟩ := List.forall_mem_cons.mp timed
    rw [mergeUnits, Disk.after_append]
    by_cases same : records.1 = unit
    · subst same
      rw [List.find?_cons_of_pos (by simp), Option.map_some, Option.bind_some,
        ← record_mergeUnit valid named (first rfl) keptTimed]
      refine Disk.record_after fun step mem touched => ?_
      have again := touched_mergeUnits.subset (List.mem_filterMap.mpr ⟨step, mem, touched⟩)
      obtain ⟨other, later, listed⟩ := List.mem_flatMap.mp again
      obtain ⟨_, _, equal⟩ := List.mem_map.mp listed
      exact (below other later).ne (congrArg Prod.fst equal).symm
    · have kept : (disk.after (mergeUnit rfc3339 (fun _ _ => true) stamps disk records.1
          records.2).steps).record unit name = disk.record unit name := by
        refine Disk.record_after fun step mem touched => ?_
        have here := touched_mergeUnit.subset (List.mem_filterMap.mpr ⟨step, mem, touched⟩)
        obtain ⟨_, _, equal⟩ := List.mem_map.mp here
        exact same (congrArg Prod.fst equal)
      rw [ih sorted timed (by rwa [kept]), kept, List.find?_cons_of_neg (by simpa using same)]

theorem record_mergedMarks {source : WorkspaceMarks × (ReviewUnit → String)}
    (valid : validateReviewUnit unit = .ok ()) (named : isTemporary name = false)
    (timed : ∀ content, keptBy source.1 unit name = some content → instant rfc3339 content ≠ ⊥)
    (keptTimed : ∀ kept, disk.record unit name = some kept → instant rfc3339 kept ≠ ⊥) :
    (mergedMarks rfc3339 disk source).record unit name =
      keepLater (instant rfc3339) (disk.record unit name) (keptBy source.1 unit name) := by
  refine record_mergeUnits source.1.sorted valid named ?_ keptTimed
  rintro records mem rfl content found
  refine timed content ?_
  rw [keptBy, SortedMap.lookup_eq_some.mpr mem]
  exact found

/-- The marks of a path, of the shared state and of the workspaces. -/
def marksOf (disk : Disk) (sources : List WorkspaceMarks) (unit : ReviewUnit) (name : String) :
    Set FileContent :=
  { content | disk.record unit name = some content ∨
    ∃ old ∈ sources, keptBy old unit name = some content }

/-- A record file that a merge can replace: its review and name are valid. -/
def Mergeable (unit : ReviewUnit) (name : String) : Prop :=
  validateReviewUnit unit = .ok () ∧ isTemporary name = false

theorem isLatest_merged {sources : List (WorkspaceMarks × (ReviewUnit → String))}
    (mergeable : Mergeable unit name)
    (timed : ∀ content ∈ marksOf disk (sources.map Prod.fst) unit name,
      instant rfc3339 content ≠ ⊥) :
    IsLatest (instant rfc3339) (marksOf disk (sources.map Prod.fst) unit name)
      ((sources.foldl (mergedMarks rfc3339) disk).record unit name) := by
  induction sources using List.reverseRecOn with
  | nil =>
    have same : marksOf disk [] unit name = { content | disk.record unit name = some content } := by
      ext content
      simp [marksOf]
    rw [List.map_nil, same]
    exact .of_option _
  | append_singleton sources source ih =>
    have same : marksOf disk ((sources ++ [source]).map Prod.fst) unit name =
        marksOf disk (sources.map Prod.fst) unit name ∪
          { content | keptBy source.1 unit name = some content } := by
      ext content
      simp only [marksOf, List.map_append, List.mem_append, List.map_singleton, Set.mem_ofPred_eq,
        Set.mem_union, List.mem_singleton, or_and_right, exists_or, exists_eq_left, or_assoc]
    rw [same] at timed ⊢
    have latest := ih fun content mem => timed content (.inl mem)
    rw [List.foldl_append, List.foldl_cons, List.foldl_nil,
      record_mergedMarks mergeable.1 mergeable.2 (fun content found => timed content (.inr found))
        fun kept found => timed kept (.inl (latest.mem kept found))]
    exact latest.keepLater

section Idle

/-- Whether a merge leaves the shared record of an entry in place. -/
def Settled (rfc3339 : String → Option Int) (disk : Disk) (unit : ReviewUnit)
    (entry : String × FileContent) : Prop :=
  isTemporary entry.1 = false → instant rfc3339 entry.2 ≠ ⊥ ∧
    ∃ kept, disk.record unit entry.1 = some kept ∧
      instant rfc3339 entry.2 ≤ instant rfc3339 kept

theorem idle_mergeEntry {entry : String × FileContent} (settled : Settled rfc3339 disk unit entry) :
    ∀ step ∈ (mergeEntry rfc3339 (fun _ _ => true) disk unit entry).steps,
      ∃ operation, step = .other operation := by
  unfold mergeEntry
  split_ifs with temporary
  · exact nofun
  · obtain ⟨timed, kept, found, before⟩ := settled (by simpa using temporary)
    split
    · exact fun step mem => ⟨_, List.mem_singleton.mp mem⟩
    · next time written =>
      have stays : replaces rfc3339 (fun _ _ => true) disk unit entry.1 time = false := by
        refine Bool.eq_false_iff.mpr fun replaced => ?_
        have keptTimed : ∀ other, disk.record unit entry.1 = some other →
            instant rfc3339 other ≠ ⊥ := by
          intro other same
          obtain rfl := Option.some.inj (found.symm.trans same)
          exact (bot_lt_iff_ne_bot.mpr timed |>.trans_le before).ne'
        exact before.not_gt ((replaces_iff written timed keptTimed).mp replaced kept found)
      rw [stays]
      exact fun step mem => ⟨_, List.mem_singleton.mp mem⟩

theorem after_idle {steps : List FileStep} (idle : ∀ step ∈ steps, ∃ operation, step = .other operation) :
    disk.after steps = disk := by
  induction steps with
  | nil => rfl
  | cons step steps ih =>
    obtain ⟨⟨operation, rfl⟩, rest⟩ := List.forall_mem_cons.mp idle
    exact ih rest

theorem idle_mergeEntries {entries : List (String × FileContent)}
    (settled : ∀ entry ∈ entries, Settled rfc3339 disk unit entry) :
    ∀ step ∈ (mergeEntries rfc3339 (fun _ _ => true) unit entries disk).steps,
      ∃ operation, step = .other operation := by
  induction entries with
  | nil => exact nofun
  | cons entry rest ih =>
    obtain ⟨first, settled⟩ := List.forall_mem_cons.mp settled
    have idle := idle_mergeEntry first
    intro step mem
    rw [mergeEntries, after_idle idle] at mem
    rcases List.mem_append.mp mem with mem | mem
    · exact idle step mem
    · exact ih settled step mem

theorem idle_mergeUnit {records : SortedMap String FileContent}
    (settled : validateReviewUnit unit = .ok () →
      ∀ entry ∈ records.entries, Settled rfc3339 disk unit entry) :
    ∀ step ∈ (mergeUnit rfc3339 (fun _ _ => true) stamps disk unit records).steps,
      ∃ operation, step = .other operation := by
  unfold mergeUnit
  split
  · exact nofun
  · next valid =>
    have idle := idle_mergeEntries (settled valid)
    have unwritten : (mergeEntries rfc3339 (fun _ _ => true) unit records.entries disk).steps.any
        writes = false := by
      refine List.any_eq_false.mpr fun step mem => ?_
      obtain ⟨operation, rfl⟩ := idle step mem
      exact Bool.false_ne_true
    simp only [unwritten, Bool.false_eq_true, if_false, List.append_nil]
    intro step mem
    rcases List.mem_append.mp mem with mem | mem
    · rcases List.mem_pair.mp mem with rfl | rfl <;> exact ⟨_, rfl⟩
    · exact idle step mem

theorem idle_mergeUnits {old : List (ReviewUnit × SortedMap String FileContent)}
    (settled : ∀ records ∈ old, validateReviewUnit records.1 = .ok () →
      ∀ entry ∈ records.2.entries, Settled rfc3339 disk records.1 entry) :
    ∀ step ∈ (mergeUnits rfc3339 (fun _ _ => true) stamps old disk).steps,
      ∃ operation, step = .other operation := by
  induction old with
  | nil => exact nofun
  | cons records rest ih =>
    obtain ⟨first, settled⟩ := List.forall_mem_cons.mp settled
    intro step mem
    rw [mergeUnits, after_idle (idle_mergeUnit first)] at mem
    rcases List.mem_append.mp mem with mem | mem
    · exact idle_mergeUnit first step mem
    · exact ih settled step mem

end Idle

/-- Of the marks of a path, the shared state's and every workspace's, the latest is kept,
whatever the order and number of merges; merging again changes nothing. -/
theorem latest_mark_kept (rfc3339 : String → Option Int) (disk : Disk)
    (sources : List (WorkspaceMarks × (ReviewUnit → String)))
    (timed : ∀ unit name, Mergeable unit name →
      ∀ content ∈ marksOf disk (sources.map Prod.fst) unit name, instant rfc3339 content ≠ ⊥)
    (distinct : ∀ unit name, Mergeable unit name →
      Set.InjOn (instant rfc3339) (marksOf disk (sources.map Prod.fst) unit name)) :
    (∀ unit name, Mergeable unit name →
      (∀ kept, (sources.foldl (mergedMarks rfc3339) disk).record unit name = some kept →
        kept ∈ marksOf disk (sources.map Prod.fst) unit name) ∧
      (∀ content ∈ marksOf disk (sources.map Prod.fst) unit name, ∃ kept,
        (sources.foldl (mergedMarks rfc3339) disk).record unit name = some kept ∧
          instant rfc3339 content ≤ instant rfc3339 kept) ∧
      ∀ others : List (WorkspaceMarks × (ReviewUnit → String)),
        (∀ old, old ∈ others.map Prod.fst ↔ old ∈ sources.map Prod.fst) →
          (others.foldl (mergedMarks rfc3339) disk).record unit name =
            (sources.foldl (mergedMarks rfc3339) disk).record unit name) ∧
      ∀ source : WorkspaceMarks × (ReviewUnit → String), source.1 ∈ sources.map Prod.fst →
        mergedMarks rfc3339 (sources.foldl (mergedMarks rfc3339) disk) source =
          sources.foldl (mergedMarks rfc3339) disk := by
  have latest := fun unit name (mergeable : Mergeable unit name) =>
    isLatest_merged mergeable (timed unit name mergeable)
  refine ⟨fun unit name mergeable => ⟨(latest unit name mergeable).mem,
    (latest unit name mergeable).latest, fun others same => ?_⟩, fun source mem => ?_⟩
  · have marks : marksOf disk (others.map Prod.fst) unit name =
        marksOf disk (sources.map Prod.fst) unit name := by
      ext content
      simp only [marksOf, same]
    refine IsLatest.unique (distinct unit name mergeable) ?_ (latest unit name mergeable)
    rw [← marks]
    exact isLatest_merged mergeable (by rw [marks]; exact timed unit name mergeable)
  · refine after_idle fun step listed => ?_
    rcases List.mem_cons.mp listed with rfl | listed
    · exact ⟨_, rfl⟩
    · refine idle_mergeUnits (fun records kept valid entry found => fun named => ?_) step listed
      have mergeable : Mergeable records.1 entry.1 := ⟨valid, named⟩
      have here : entry.2 ∈ marksOf disk (sources.map Prod.fst) records.1 entry.1 := by
        refine .inr ⟨source.1, mem, ?_⟩
        rw [keptBy, SortedMap.lookup_eq_some.mpr kept]
        exact SortedMap.lookup_eq_some.mpr found
      exact ⟨timed _ _ mergeable _ here, (latest _ _ mergeable).latest _ here⟩

section Samples

/-- Two times that RFC 3339 writes with different offsets, in nanoseconds. -/
def sampleClock (text : String) : Option Int :=
  if text = "2024-01-01T00:00:00Z" then some 1704067200000000000
  else if text = "2024-01-01T01:30:00+01:00" then some 1704069000000000000 else none

def sampleMark (time : String) : FileContent := some (.object [("reviewed_at", .text time)])

/-- A workspace that marked one file at the given time. -/
def workspaceAt (time : String) : WorkspaceMarks × (ReviewUnit → String) :=
  (SortedMap.empty.insert "unit" (SortedMap.empty.insert "a.json" (sampleMark time)),
    fun _ => time)

def sampleWorkspaces : List (WorkspaceMarks × (ReviewUnit → String)) :=
  [workspaceAt "2024-01-01T01:30:00+01:00", workspaceAt "2024-01-01T00:00:00Z"]

theorem sample_marksOf {content : FileContent}
    (mem : content ∈ marksOf .empty (sampleWorkspaces.map Prod.fst) unit name) :
    content = sampleMark "2024-01-01T01:30:00+01:00" ∨ content = sampleMark "2024-01-01T00:00:00Z" := by
  have kept : ∀ time, keptBy (workspaceAt time).1 unit name = some content →
      content = sampleMark time := by
    intro time found
    obtain ⟨records, one, found⟩ := Option.bind_eq_some_iff.mp found
    have one := SortedMap.lookup_eq_some.mp one
    have same := congrArg Prod.snd (List.mem_singleton.mp one)
    dsimp only at same
    subst same
    exact congrArg Prod.snd (List.mem_singleton.mp (SortedMap.lookup_eq_some.mp found))
  rcases mem with none | ⟨old, listed, found⟩
  · cases none
  · rcases List.mem_pair.mp listed with rfl | rfl
    · exact .inl (kept _ found)
    · exact .inr (kept _ found)

theorem instant_sampleMark :
    instant sampleClock (sampleMark "2024-01-01T01:30:00+01:00") =
        ((1704069000000000000 : Int) : WithBot Int) ∧
      instant sampleClock (sampleMark "2024-01-01T00:00:00Z") =
        ((1704067200000000000 : Int) : WithBot Int) := by
  constructor <;> rfl

theorem latest_sample_kept :
    (sampleWorkspaces.foldl (mergedMarks sampleClock) .empty).record "unit" "a.json" =
        some (sampleMark "2024-01-01T01:30:00+01:00") ∧
      mergedMarks sampleClock (sampleWorkspaces.foldl (mergedMarks sampleClock) .empty)
        (workspaceAt "2024-01-01T00:00:00Z") =
          sampleWorkspaces.foldl (mergedMarks sampleClock) .empty := by
  have timed : ∀ unit name, Mergeable unit name →
      ∀ content ∈ marksOf .empty (sampleWorkspaces.map Prod.fst) unit name,
        instant sampleClock content ≠ ⊥ := by
    intro unit name _ content mem
    rcases sample_marksOf mem with rfl | rfl
    · rw [instant_sampleMark.1]; exact WithBot.coe_ne_bot
    · rw [instant_sampleMark.2]; exact WithBot.coe_ne_bot
  have apart : ((1704067200000000000 : Int) : WithBot Int) < ((1704069000000000000 : Int) : WithBot Int) :=
    WithBot.coe_lt_coe.mpr (by decide)
  have distinct : ∀ unit name, Mergeable unit name →
      Set.InjOn (instant sampleClock) (marksOf .empty (sampleWorkspaces.map Prod.fst) unit name) := by
    intro unit name _ content mem other memOther same
    rcases sample_marksOf mem with rfl | rfl <;> rcases sample_marksOf memOther with rfl | rfl
    · rfl
    · rw [instant_sampleMark.1, instant_sampleMark.2] at same
      exact absurd same apart.ne'
    · rw [instant_sampleMark.1, instant_sampleMark.2] at same
      exact absurd same apart.ne
    · rfl
  obtain ⟨kept, merging⟩ := latest_mark_kept sampleClock .empty sampleWorkspaces timed distinct
  refine ⟨?_, merging _ (List.mem_cons_of_mem _ List.mem_cons_self)⟩
  obtain ⟨fromMarks, latest, -⟩ := kept "unit" "a.json" ⟨by decide, by decide +kernel⟩
  have here : sampleMark "2024-01-01T01:30:00+01:00" ∈
      marksOf .empty (sampleWorkspaces.map Prod.fst) "unit" "a.json" :=
    .inr ⟨_, List.mem_cons_self, by rfl⟩
  obtain ⟨content, found, notBefore⟩ := latest _ here
  rcases sample_marksOf (fromMarks content found) with rfl | rfl
  · exact found
  · rw [instant_sampleMark.1, instant_sampleMark.2] at notBefore
    exact absurd notBefore apart.not_ge

end Samples

end ReviewStore

end ProgressiveReviewer.Marks
