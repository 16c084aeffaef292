import ProgressiveReviewer.Marks.Loading

/-! The marks stamp of a review: when an operation of the store that stops at a failing
file step has changed the records, and when the stamp. -/

namespace ProgressiveReviewer.Marks

open Library Hunks

namespace FileStep

/-- Whether a step changes what a record file of a review holds. -/
def Changes (disk : Disk) (unit : ReviewUnit) (step : FileStep) : Prop :=
  ∃ name, step.touches = some (unit, name) ∧ step.leaves ≠ disk.record unit name

end FileStep

namespace Disk

variable {disk : Disk} {unit : ReviewUnit} {steps : List FileStep}

/-- The records of a review. -/
def records (disk : Disk) (unit : ReviewUnit) : String → Option FileContent := disk.record unit

theorem records_after_of_unchanged (none : ∀ step ∈ steps, ¬ step.Changes disk unit) :
    (disk.after steps).records unit = disk.records unit := by
  induction steps generalizing disk with
  | nil => rfl
  | cons step steps ih =>
    obtain ⟨first, none⟩ := List.forall_mem_cons.mp none
    have same : (disk.apply step).records unit = disk.records unit := by
      funext name
      rw [records, record_apply]
      split_ifs with touched
      · exact not_not.mp fun other => first ⟨name, touched, other⟩
      · rfl
    rw [after_cons, ih, same]
    rintro step mem ⟨name, touched, other⟩
    exact none step mem ⟨name, touched, fun equal => other (equal.trans (congrFun same name).symm)⟩

/-- Where no record file is touched twice, a change of one stays. -/
theorem records_after_iff (once : (steps.filterMap FileStep.touches).Nodup) :
    (disk.after steps).records unit = disk.records unit ↔
      ∀ step ∈ steps, ¬ step.Changes disk unit := by
  refine ⟨fun same => ?_, records_after_of_unchanged⟩
  induction steps generalizing disk with
  | nil => exact fun _ mem => absurd mem List.not_mem_nil
  | cons step steps ih =>
    have later : ∀ name, step.touches = some (unit, name) →
        ∀ other ∈ steps, other.touches ≠ some (unit, name) := by
      intro name touched other mem again
      rw [List.filterMap_cons_some touched] at once
      exact (List.nodup_cons.mp once).1 (List.mem_filterMap.mpr ⟨other, mem, again⟩)
    have rest : (steps.filterMap FileStep.touches).Nodup :=
      once.sublist ((List.sublist_cons_self step steps).filterMap _)
    have first : ¬ step.Changes disk unit := by
      rintro ⟨name, touched, other⟩
      have kept := congrFun same name
      rw [records, records, after_cons, record_after (later name touched), record_apply,
        if_pos touched] at kept
      exact other kept
    have unchanged : (disk.after [step]).records unit = disk.records unit :=
      records_after_of_unchanged (by simpa using first)
    have kept := ih rest (same.trans unchanged.symm)
    refine List.forall_mem_cons.mpr ⟨first, fun other mem changes => kept other mem ?_⟩
    obtain ⟨name, touched, different⟩ := changes
    exact ⟨name, touched, fun equal => different (equal.trans (congrFun unchanged name))⟩

theorem stamp_after_iff (fresh : ∀ value, FileStep.stamp unit value ∈ steps →
      disk.stamp unit ≠ some value) :
    (disk.after steps).stamp unit ≠ disk.stamp unit ↔ ∃ value, FileStep.stamp unit value ∈ steps := by
  constructor
  · intro changed
    by_contra unstamped
    exact changed (stamp_after fun value mem => unstamped ⟨value, mem⟩)
  · rintro ⟨value, stamped⟩ same
    obtain ⟨last, mem, now⟩ : ∃ last, FileStep.stamp unit last ∈ steps ∧
        (disk.after steps).stamp unit = some last := stamp_after_stamped stamped
    exact fresh last mem (same.symm.trans now)

end Disk

/-- Steps that touch no record file twice, and that stamp a review whose records they
touch. -/
structure Sealed (steps : List FileStep) : Prop where
  once : (steps.filterMap FileStep.touches).Nodup
  stamped : ∀ step ∈ steps, ∀ unit name, step.touches = some (unit, name) →
    ∃ value, FileStep.stamp unit value ∈ steps

namespace Sealed

variable {disk : Disk} {unit : ReviewUnit} {steps : List FileStep}

theorem of_untouched (untouched : ∀ step ∈ steps, step.touches = none) : Sealed steps where
  once := by
    rw [List.filterMap_eq_nil_iff.mpr untouched]
    exact List.nodup_nil
  stamped step mem _ _ touched := by cases (untouched step mem).symm.trans touched

theorem nil : Sealed [] := .of_untouched nofun

theorem other {operation : String} (closed : Sealed steps) :
    Sealed (.other operation :: steps) where
  once := closed.once
  stamped step mem unit name touched := by
    rcases List.mem_cons.mp mem with rfl | mem
    · cases touched
    · obtain ⟨value, mem⟩ := closed.stamped step mem unit name touched
      exact ⟨value, List.mem_cons_of_mem _ mem⟩

/-- What is left when the step after the first `n` fails, or none does. -/
def stopped (failing : Option Nat) (steps : List FileStep) : List FileStep :=
  match failing with
  | none => steps
  | some n => steps.take n

/-- A change of the records goes with one of the stamp, exactly unless a step fails after
the records changed and before the stamp did. -/
theorem stamp_iff (closed : Sealed steps) (failing : Option Nat)
    (fresh : ∀ value, FileStep.stamp unit value ∈ steps → disk.stamp unit ≠ some value) :
    ((disk.after (stopped failing steps)).records unit ≠ disk.records unit →
        (disk.after (stopped failing steps)).stamp unit ≠ disk.stamp unit) ↔
      ∀ n, failing = some n → (∀ step ∈ steps.take n, ¬ step.Changes disk unit) ∨
        ∃ value, FileStep.stamp unit value ∈ steps.take n := by
  cases failing with
  | none =>
    refine ⟨fun _ => nofun, fun _ changed => ?_⟩
    rw [stopped, Disk.stamp_after_iff fresh]
    rw [stopped, ne_eq, Disk.records_after_iff closed.once] at changed
    push Not at changed
    obtain ⟨step, mem, name, touched, _⟩ := changed
    exact closed.stamped step mem unit name touched
  | some n =>
    have once : ((steps.take n).filterMap FileStep.touches).Nodup :=
      closed.once.sublist ((List.take_sublist n steps).filterMap _)
    rw [stopped, Disk.stamp_after_iff fun value mem => fresh value (List.mem_of_mem_take mem), ne_eq,
      Disk.records_after_iff once]
    simp only [Option.some.injEq, forall_eq']
    exact imp_iff_not_or.trans (or_congr_left not_not)

end Sealed

namespace ReviewStore

/-- One operation of the store. -/
inductive Operation where
  | mark (unit : ReviewUnit) (path : RepoPath) (baselineCommitId reviewedAt : String)
      (author : MarkAuthor) (stamp : String)
  | markPartial (unit : ReviewUnit) (path : RepoPath) (baselineCommitId reviewedAt : String)
      (review : PartialReview) (stamp : String)
  | unreview (unit : ReviewUnit) (path : RepoPath) (stamp : String)
  | unreviewExpired (unit : ReviewUnit) (path : RepoPath) (reviewedAt stamp : String)
  | unreviewAll (unit : ReviewUnit) (listing : Listing) (stamp : String)
  | mergeMarks (old : WorkspaceMarks) (readable : ReviewUnit → String → Bool)
      (stamp : ReviewUnit → String)

variable (hash : RepoPath → String) (rfc3339 : String → Option Int)

def Operation.steps (disk : Disk) : Operation → List FileStep
  | .mark unit path commit reviewedAt author stamp =>
    (markFile hash disk unit path commit reviewedAt author stamp).steps
  | .markPartial unit path commit reviewedAt review stamp =>
    (markPartialFile hash disk unit path commit reviewedAt review stamp).steps
  | .unreview unit path stamp => (unreviewFiles hash disk unit path stamp).steps
  | .unreviewExpired unit path reviewedAt stamp =>
    (unreviewExpiredFiles hash disk unit path reviewedAt stamp).steps
  | .unreviewAll unit listing stamp => (unreviewAllFiles disk unit listing stamp).steps
  | .mergeMarks old readable stamp => (ReviewStore.mergeMarks rfc3339 readable stamp disk old).steps

variable {hash : RepoPath → String} {rfc3339 : String → Option Int} {disk : Disk}
  {unit : ReviewUnit} {path : RepoPath} {stamp : String}

theorem sealed_storeMarkFiles {record : ReviewRecord} :
    Sealed (storeMarkFiles hash disk unit record stamp).steps := by
  cases done : (storeMarkFiles hash disk unit record stamp).outcome with
  | ok =>
    rw [(storeMarkFiles_eq_ok done).2]
    refine ⟨List.nodup_singleton _, fun step mem other name touched => ⟨stamp, ?_⟩⟩
    have same : other = unit := by
      simp only [atomicWrite, prepareWrite, stampMarks, List.cons_append, List.nil_append,
        List.mem_cons, List.not_mem_nil, or_false] at mem
      rcases mem with rfl | rfl | rfl | rfl | rfl | rfl | rfl | rfl | rfl | rfl | rfl | rfl | rfl |
        rfl <;>
        cases touched
      rfl
    rw [same]
    simp [stampMarks]
  | error failure =>
    refine .of_untouched fun step mem => ?_
    unfold storeMarkFiles at done mem
    split at mem
    · cases mem
    · next valid =>
      rw [valid] at done
      unfold writeRecord at done mem
      dsimp only at done mem
      split_ifs at done mem
      · rcases List.mem_pair.mp mem with rfl | rfl <;> rfl
      · cases done

theorem sealed_unreviewSteps : Sealed (unreviewSteps hash disk unit path stamp) := by
  unfold unreviewSteps
  dsimp only
  split
  · refine ⟨List.nodup_singleton _, fun step mem other name touched => ⟨stamp, ?_⟩⟩
    have same : other = unit := by
      simp only [stampMarks, List.cons_append, List.nil_append, List.mem_cons, List.not_mem_nil,
        or_false] at mem
      rcases mem with rfl | rfl | rfl | rfl | rfl | rfl <;> cases touched
      rfl
    rw [same]
    simp [stampMarks]
  · exact .of_untouched fun step mem => by rw [List.mem_singleton.mp mem]; rfl

theorem sealed_unreviewFiles : Sealed (unreviewFiles hash disk unit path stamp).steps := by
  unfold unreviewFiles
  split
  · exact Sealed.nil
  · exact sealed_unreviewSteps

theorem sealed_unreviewExpiredFiles {reviewedAt : String} :
    Sealed (unreviewExpiredFiles hash disk unit path reviewedAt stamp).steps := by
  unfold unreviewExpiredFiles
  split
  · exact Sealed.nil
  · refine .other ?_
    split
    · split_ifs
      · exact sealed_unreviewSteps
      · exact Sealed.nil
    · exact Sealed.nil

theorem sealed_unreviewAllFiles {listing : Listing} :
    Sealed (unreviewAllFiles disk unit listing stamp).steps := by
  unfold unreviewAllFiles
  split
  · exact Sealed.nil
  · exact Sealed.nil.other
  · next records _ _ =>
    refine ⟨?_, fun step mem other name touched => ⟨stamp, ?_⟩⟩
    · have touched : ((listing.order records.keys).map (FileStep.remove unit)).filterMap
          FileStep.touches = (listing.order records.keys).map fun name => (unit, name) := by
        rw [List.filterMap_map]
        exact congrFun List.filterMap_eq_map _
      rw [List.append_assoc, List.filterMap_append, touched]
      refine List.Nodup.append ?_ List.nodup_nil (List.disjoint_nil_right _)
      exact ((listing.perm _).nodup_iff.mpr records.nodup_keys).map fun _ _ => congrArg Prod.snd
    · have same : other = unit := by
        simp only [stampMarks, List.append_assoc, List.cons_append, List.nil_append,
          List.mem_append, List.mem_map, List.mem_cons, List.not_mem_nil, or_false] at mem
        rcases mem with ⟨file, _, rfl⟩ | rfl | rfl | rfl | rfl | rfl | rfl <;> cases touched
        rfl
      rw [same]
      simp [stampMarks]

section Merging

variable {readable : ReviewUnit → String → Bool} {stamps : ReviewUnit → String}

theorem touched_mergeEntry {entry : String × FileContent} :
    ((mergeEntry rfc3339 readable disk unit entry).steps.filterMap FileStep.touches).Sublist
      [(unit, entry.1)] := by
  unfold mergeEntry
  split_ifs
  · exact List.nil_sublist _
  · split
    · exact List.nil_sublist _
    · split_ifs
      · exact List.Sublist.refl _
      · exact List.nil_sublist _

theorem touched_mergeEntries {entries : List (String × FileContent)} :
    ((mergeEntries rfc3339 readable unit entries disk).steps.filterMap FileStep.touches).Sublist
      (entries.map fun entry => (unit, entry.1)) := by
  induction entries generalizing disk with
  | nil => exact List.nil_sublist _
  | cons entry rest ih =>
    rw [mergeEntries, List.filterMap_append, List.map_cons]
    exact touched_mergeEntry.append ih

theorem writes_of_touches {entries : List (String × FileContent)} {step : FileStep}
    (mem : step ∈ (mergeEntries rfc3339 readable unit entries disk).steps)
    (touched : step.touches ≠ none) : writes step = true := by
  induction entries generalizing disk with
  | nil => cases mem
  | cons entry rest ih =>
    rcases List.mem_append.mp mem with mem | mem
    · cases step with
      | put => rfl
      | remove other name =>
        unfold mergeEntry at mem
        split_ifs at mem
        · cases mem
        · split at mem
          · simp at mem
          · split_ifs at mem <;> simp [atomicWrite, prepareWrite] at mem
      | _ => exact absurd rfl touched
    · exact ih mem

theorem touched_mergeUnit {records : SortedMap String FileContent} :
    ((mergeUnit rfc3339 readable stamps disk unit records).steps.filterMap FileStep.touches).Sublist
      (records.entries.map fun entry => (unit, entry.1)) := by
  unfold mergeUnit
  split
  · exact List.nil_sublist _
  · have stamped : ∀ changed : Bool, (if changed = true then stampMarks unit (stamps unit)
        else []).filterMap FileStep.touches = [] := by
      intro changed
      split_ifs <;> rfl
    dsimp only
    rw [List.filterMap_append, stamped, List.append_nil, List.filterMap_append]
    exact touched_mergeEntries

theorem stamped_mergeUnit {records : SortedMap String FileContent} {step : FileStep}
    {other : ReviewUnit} {name : String}
    (mem : step ∈ (mergeUnit rfc3339 readable stamps disk unit records).steps)
    (touched : step.touches = some (other, name)) :
    ∃ value, FileStep.stamp other value ∈
      (mergeUnit rfc3339 readable stamps disk unit records).steps := by
  have named := touched_mergeUnit.subset (List.mem_filterMap.mpr ⟨step, mem, touched⟩)
  obtain ⟨_, _, same⟩ := List.mem_map.mp named
  obtain rfl : unit = other := congrArg Prod.fst same
  unfold mergeUnit at mem ⊢
  split at mem
  · cases mem
  · next valid =>
    dsimp only at mem ⊢
    simp only [List.append_assoc, List.mem_append, List.mem_cons, List.not_mem_nil, or_false] at mem
    rcases mem with (rfl | rfl) | mem | mem
    · cases touched
    · cases touched
    · have wrote : (mergeEntries rfc3339 readable unit records.entries disk).steps.any writes = true :=
        List.any_eq_true.mpr ⟨step, mem, writes_of_touches mem (by simp [touched])⟩
      refine ⟨stamps unit, List.mem_append_right _ ?_⟩
      rw [if_pos wrote]
      simp [stampMarks]
    · split_ifs at mem
      · simp only [stampMarks, List.mem_cons, List.not_mem_nil, or_false] at mem
        rcases mem with rfl | rfl | rfl | rfl <;> cases touched
      · cases mem

theorem touched_mergeUnits {old : List (ReviewUnit × SortedMap String FileContent)} :
    ((mergeUnits rfc3339 readable stamps old disk).steps.filterMap FileStep.touches).Sublist
      (old.flatMap fun records => records.2.entries.map fun entry => (records.1, entry.1)) := by
  induction old generalizing disk with
  | nil => exact List.nil_sublist _
  | cons records rest ih =>
    rw [mergeUnits, List.filterMap_append, List.flatMap_cons]
    exact touched_mergeUnit.append ih

theorem stamped_mergeUnits {old : List (ReviewUnit × SortedMap String FileContent)}
    {step : FileStep} {name : String}
    (mem : step ∈ (mergeUnits rfc3339 readable stamps old disk).steps)
    (touched : step.touches = some (unit, name)) :
    ∃ value, FileStep.stamp unit value ∈ (mergeUnits rfc3339 readable stamps old disk).steps := by
  induction old generalizing disk with
  | nil => cases mem
  | cons records rest ih =>
    rcases List.mem_append.mp mem with mem | mem
    · obtain ⟨value, stamped⟩ := stamped_mergeUnit mem touched
      exact ⟨value, List.mem_append_left _ stamped⟩
    · obtain ⟨value, stamped⟩ := ih mem
      exact ⟨value, List.mem_append_right _ stamped⟩

theorem sealed_mergeMarks {old : WorkspaceMarks} :
    Sealed (mergeMarks rfc3339 readable stamps disk old).steps := by
  refine .other ⟨List.Nodup.sublist touched_mergeUnits ?_, fun step mem unit name touched =>
    stamped_mergeUnits mem touched⟩
  refine List.nodup_flatMap.mpr ⟨fun records _ => ?_, ?_⟩
  · have nodup := records.2.nodup_keys.map (f := fun name => (records.1, name))
      fun _ _ => congrArg Prod.snd
    rwa [SortedMap.keys, List.map_map] at nodup
  · refine old.sorted.imp fun {a b} before => List.disjoint_left.mpr fun pair inA inB => ?_
    obtain ⟨_, _, rfl⟩ := List.mem_map.mp inA
    obtain ⟨_, _, same⟩ := List.mem_map.mp inB
    exact before.ne (congrArg Prod.fst same).symm

end Merging

theorem sealed_steps (operation : Operation) : Sealed (operation.steps hash rfc3339 disk) := by
  cases operation with
  | mark => exact sealed_storeMarkFiles
  | markPartial => exact sealed_storeMarkFiles
  | unreview => exact sealed_unreviewFiles
  | unreviewExpired => exact sealed_unreviewExpiredFiles
  | unreviewAll => exact sealed_unreviewAllFiles
  | mergeMarks => exact sealed_mergeMarks

/-- What an operation leaves when one of its file steps fails, or none does. -/
def Operation.run (hash : RepoPath → String) (rfc3339 : String → Option Int)
    (operation : Operation) (failing : Option Nat) (disk : Disk) : Disk :=
  disk.after (Sealed.stopped failing (operation.steps hash rfc3339 disk))

/-- The stamp changes with the records exactly when no file step fails after the records
changed and before the stamp did. -/
theorem stamp_shows_change_iff (operation : Operation) (failing : Option Nat)
    (fresh : ∀ value, FileStep.stamp unit value ∈ operation.steps hash rfc3339 disk →
      disk.stamp unit ≠ some value) :
    ((operation.run hash rfc3339 failing disk).records unit ≠ disk.records unit →
        (operation.run hash rfc3339 failing disk).stamp unit ≠ disk.stamp unit) ↔
      ∀ n, failing = some n →
        (∀ step ∈ (operation.steps hash rfc3339 disk).take n, ¬ step.Changes disk unit) ∨
          ∃ value, FileStep.stamp unit value ∈ (operation.steps hash rfc3339 disk).take n :=
  (sealed_steps operation).stamp_iff failing fresh

section Samples

/-- The first mark of a review. -/
def firstMark : Operation := .mark "unit" [97] "ab" "2024-01-01T00:00:00Z" .reviewer "stamp"

/-- No time is read. -/
def noTime (_ : String) : Option Int := none

/-- The mark is in place and its directory is not synced: the stamp is still missing. -/
theorem unsynced_mark_unstamped :
    (firstMark.run oneName noTime (some 9) .empty).records "unit" ≠ Disk.empty.records "unit" ∧
      (firstMark.run oneName noTime (some 9) .empty).stamp "unit" = Disk.empty.stamp "unit" := by
  refine ⟨fun same => ?_, by rfl⟩
  have kept := congrFun same "record.json"
  cases kept

theorem first_mark_stamped :
    (firstMark.run oneName noTime none .empty).stamp "unit" ≠ Disk.empty.stamp "unit" := by
  have shows : (firstMark.run oneName noTime none .empty).records "unit" ≠
        Disk.empty.records "unit" →
      (firstMark.run oneName noTime none .empty).stamp "unit" ≠ Disk.empty.stamp "unit" :=
    (stamp_shows_change_iff firstMark none fun _ _ same => by cases same).mpr nofun
  refine shows fun same => ?_
  have kept := congrFun same "record.json"
  cases kept

end Samples

end ReviewStore

end ProgressiveReviewer.Marks
