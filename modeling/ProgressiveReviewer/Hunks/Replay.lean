import ProgressiveReviewer.Hunks.Splice
import ProgressiveReviewer.Library.Carry

/-! Moving a reviewed version to a new base is a conservative merge: the reviewed
changes that no upstream change meets are carried over to the new base, in order, and
nothing else of the reviewed version is. -/

namespace ProgressiveReviewer.Hunks

open Library Library.Extent

/-- What changed between two bases; equal bases are not compared. -/
def upstreamChanges (d : Differ) (oldBase newBase : Bytes) : List Change :=
  if oldBase = newBase then [] else d.changes oldBase newBase

theorem upstreamChanges_script {d : Differ} (valid : d.Valid) (oldBase newBase : Bytes) :
    Script (Lines.new oldBase) (Lines.new newBase) (upstreamChanges d oldBase newBase) := by
  unfold upstreamChanges
  split_ifs with same
  · exact Script.nil_iff.mpr (by rw [same])
  · exact valid oldBase newBase

/-- The reviewed changes that no upstream change meets, with where they land. -/
def replayTargets (upstream changes : List Change) : List (Change × Range) :=
  changes.filterMap fun change => (translate (forward upstream) change.before).map (change, ·)

/-- The view that replaying rebuilds from: the new base and the reviewed version. -/
def replayView (reviewed : Reviewed) (newBase : Bytes) : HunkReview :=
  ⟨newBase, reviewed.text, newBase, reviewed.attribution⟩

def replaySplice (upstream changes : List Change) (reviewed : Reviewed) (newBase : Bytes)
    (position : Nat) : Splice where
  written := merge (replayView reviewed newBase).restoredLines (replayView reviewed newBase).keptLines
    position (carry (replayTargets upstream changes))
  removals := (replayTargets upstream changes).flatMap fun entry =>
    (entry.1.before.positions.zip entry.2.positions).map fun line =>
      (line.2, reviewed.attribution.removedBy line.1)

section Targets

variable {olds news revs : Lines} {upstream changes : List Change}
  (up : Script olds news upstream) (own : Script olds revs changes)

include up own

theorem carried_of_mem {entry : Change × Range} (mem : entry ∈ replayTargets upstream changes) :
    entry.1 ∈ changes ∧ translate (forward upstream) entry.1.before = some entry.2 ∧
      Carried upstream entry.1 entry.2 := by
  obtain ⟨change, inside, landed⟩ := List.mem_filterMap.mp mem
  obtain ⟨target, found, rfl⟩ := Option.map_eq_some_iff.mp landed
  refine ⟨inside, found, ?_⟩
  rcases translate_spec up (own.bounds inside).2.2.1 with ⟨_, nowhere⟩ | ⟨clear, r', placed, found'⟩
  · rw [nowhere] at found
    cases found
  · rw [found'] at found
    obtain rfl := Option.some.inj found
    refine ⟨placed, fun e mem => ?_⟩
    rw [List.any_eq_false] at clear
    exact overlaps_eq_false_iff.mp (Bool.eq_false_iff.mpr (clear e mem))

/-- Exactly the changes that no upstream change meets are carried. -/
theorem replayTargets_fst :
    (replayTargets upstream changes).map Prod.fst =
      changes.filter fun change => !upstream.any fun e => overlaps e.before change.before := by
  have each : ∀ change ∈ changes,
      ((translate (forward upstream) change.before).map (change, ·)).map Prod.fst =
        if !upstream.any (fun e => overlaps e.before change.before) then some change else none := by
    intro change inside
    rcases translate_spec up (own.bounds inside).2.2.1 with ⟨meets, nowhere⟩ | ⟨clear, _, _, found⟩
    · simp [meets, nowhere]
    · simp [clear, found]
  rw [replayTargets, List.map_filterMap, List.filterMap_congr each]
  exact congrFun List.filterMap_eq_filter changes

theorem replayTargets_sublist :
    ((replayTargets upstream changes).map Prod.fst).Sublist changes := by
  rw [replayTargets_fst up own]
  exact List.filter_sublist

theorem target_bounds {entry : Change × Range} (mem : entry ∈ replayTargets upstream changes) :
    entry.2.start ≤ entry.2.stop ∧ entry.2.stop ≤ news.length := by
  obtain ⟨inside, _, carried⟩ := carried_of_mem up own mem
  have bounds := own.bounds inside
  have size := carried.placed.size
  exact ⟨by omega, carried.placed.stop_le_length up (Nat.zero_le _) (Nat.zero_le _)
    bounds.2.2.2.2.1⟩

theorem targets_in_order :
    (replayTargets upstream changes).Pairwise fun a b => a.2.stop ≤ b.2.start :=
  carried_pairwise up own (replayTargets_sublist up own) fun _ mem =>
    (carried_of_mem up own mem).2.2

end Targets

/-- One carried change: the new base up to its target, then the change's lines. -/
theorem replayFrom_cons {upstream : List Change} {reviewed : Reviewed} {newBase : Bytes}
    {change : Change} {changes : List Change} {target : Range} {position : Nat}
    (found : translate (forward upstream) change.before = some target)
    (behind : position ≤ target.start) (le : target.start ≤ target.stop)
    (stop : target.stop ≤ (Lines.new newBase).length)
    (afterLe : change.after.start ≤ change.after.stop)
    (afterStop : change.after.stop ≤ (Lines.new reviewed.text).length) (rebuild : Rebuild) :
    let view := replayView reviewed newBase
    replayFrom upstream reviewed.attribution (Lines.new reviewed.text) (Lines.new newBase) rebuild
        position (change :: changes) =
      replayFrom upstream reviewed.attribution (Lines.new reviewed.text) (Lines.new newBase)
        (view.writes .reviewer rebuild
          ⟨cut view.restoredLines ⟨position, target.start⟩ ++ change.after.cut view.keptLines,
            (change.before.positions.zip target.positions).map fun line =>
              (line.2, reviewed.attribution.removedBy line.1)⟩) target.stop changes := by
  intro view
  have lands : replayTarget upstream position change = some target := by
    simp [replayTarget, found, Option.filter, behind]
  have restored : ∀ rebuild : Rebuild,
      (cut (Lines.new newBase) ⟨position, target.start⟩).foldl
          (fun rebuild line => rebuild.push line reviewed.attribution.default) rebuild =
        view.writes .reviewer rebuild ⟨cut view.restoredLines ⟨position, target.start⟩, []⟩ :=
    fun rebuild => view.foldl_restored .reviewer rebuild ⟨position, target.start⟩
      (show target.start ≤ (Lines.new newBase).length by omega)
  have kept : ∀ rebuild : Rebuild,
      (change.after.positions.zip (change.after.cut (Lines.new reviewed.text))).foldl
          (fun rebuild entry => rebuild.push entry.2 (reviewed.attribution.addedBy entry.1)) rebuild =
        view.writes .reviewer rebuild ⟨change.after.cut view.keptLines, []⟩ :=
    fun rebuild => view.foldl_kept .reviewer rebuild afterStop
  have removals : ∀ rebuild : Rebuild,
      (change.before.positions.zip target.positions).foldl
          (fun rebuild entry => rebuild.remove entry.2 (reviewed.attribution.removedBy entry.1))
          rebuild =
        view.writes .reviewer rebuild ⟨[], (change.before.positions.zip target.positions).map
          fun line => (line.2, reviewed.attribution.removedBy line.1)⟩ := by
    intro rebuild
    have folded := rebuild.foldl_remove (β := Nat × Nat) (fun entry => some entry.2)
      (fun entry => reviewed.attribution.removedBy entry.1)
      (change.before.positions.zip target.positions)
    simpa only [Option.map_some, List.filterMap_eq_map', HunkReview.writes, List.map_nil]
      using folded
  rw [replayFrom, lands]
  dsimp only
  rw [Lines.get_eq_some behind (by dsimp only; omega), Lines.get_eq_some afterLe afterStop,
    Option.getD_some, Option.getD_some, restored, removals, kept, HunkReview.writes_writes,
    HunkReview.writes_writes]
  simp

/-- Replaying writes the carried changes over the new base. -/
theorem replayFrom_eq {olds : Lines} {upstream changes : List Change} {reviewed : Reviewed}
    {newBase : Bytes} {position : Nat} (up : Script olds (Lines.new newBase) upstream)
    {all : List Change} (own : Script olds (Lines.new reviewed.text) all)
    (sub : changes.Sublist all) (le : position ≤ (Lines.new newBase).length)
    (behind : ∀ entry ∈ replayTargets upstream changes, position ≤ entry.2.start)
    (rebuild : Rebuild) :
    let view := replayView reviewed newBase
    replayFrom upstream reviewed.attribution (Lines.new reviewed.text) (Lines.new newBase) rebuild
        position changes =
      view.writes .reviewer rebuild (replaySplice upstream changes reviewed newBase position) := by
  intro view
  induction changes generalizing position rebuild with
  | nil =>
    have restored : (cut (Lines.new newBase) ⟨position, (Lines.new newBase).length⟩).foldl
          (fun rebuild line => rebuild.push line reviewed.attribution.default) rebuild =
        view.writes .reviewer rebuild
          ⟨cut view.restoredLines ⟨position, (Lines.new newBase).length⟩, []⟩ :=
      view.foldl_restored .reviewer rebuild _ (Nat.le_refl _)
    have size : view.restoredLines.length = (Lines.new newBase).length := view.restoredLines_length
    rw [replayFrom, Lines.rest, Lines.get_eq_some le (Nat.le_refl _), Option.getD_some, restored,
      ← size, cut_to_end]
    simp [replaySplice, replayTargets, carry, merge, view]
  | cons change changes ih =>
    have inside := sub.subset List.mem_cons_self
    have rest := (List.sublist_cons_self change changes).trans sub
    have bounds := own.bounds inside
    cases found : translate (forward upstream) change.before with
    | none =>
      have same : replayTargets upstream (change :: changes) = replayTargets upstream changes := by
        simp [replayTargets, found]
      rw [same] at behind
      rw [replayFrom, replayTarget, found]
      simp only [Option.filter_none, ih rest le behind, replaySplice, same]
    | some target =>
      have split : replayTargets upstream (change :: changes) =
          (change, target) :: replayTargets upstream changes := by
        simp [replayTargets, found]
      have ownTarget : (change, target) ∈ replayTargets upstream all :=
        List.mem_filterMap.mpr ⟨change, inside, by simp [found]⟩
      have order : (replayTargets upstream (change :: changes)).Pairwise
          fun a b => a.2.stop ≤ b.2.start := (targets_in_order up own).sublist (sub.filterMap _)
      have later : ∀ entry ∈ replayTargets upstream changes, target.stop ≤ entry.2.start := by
        have all_later := (List.pairwise_cons.mp (split ▸ order)).1
        exact fun entry mem => all_later entry mem
      have within := target_bounds up own ownTarget
      have first := behind (change, target) (split ▸ List.mem_cons_self)
      rw [replayFrom_cons found first within.1 within.2 bounds.2.2.2.1 bounds.2.2.2.2.2.1,
        ih rest within.2 later, HunkReview.writes_writes]
      have size : change.after.stop ≤ view.keptLines.length := by
        rw [HunkReview.keptLines_length]
        exact bounds.2.2.2.2.2.1
      simp only [replaySplice, split, carry, List.map_cons, merge, Choice.take, elements_nil,
        List.nil_append, elements_positions _ _ size, List.flatMap_cons, List.append_assoc, view]

/-- The lines that replaying writes are the lines of what it writes. -/
theorem lineList_replaySplice {olds : Lines} {upstream changes : List Change} {reviewed : Reviewed}
    {newBase : Bytes} (up : Script olds (Lines.new newBase) upstream)
    (own : Script olds (Lines.new reviewed.text) changes) :
    let view := replayView reviewed newBase
    let written := (replaySplice upstream changes reviewed newBase 0).written.map view.originText
    written = merge (Lines.new newBase) (Lines.new reviewed.text) 0
        (carry (replayTargets upstream changes)) ∧ LineList isNewline written := by
  intro view written
  have eq : written = merge (Lines.new newBase) (Lines.new reviewed.text) 0
      (carry (replayTargets upstream changes)) := by
    simp only [written, replaySplice, ← merge_map]
    rw [HunkReview.restoredLines_text, HunkReview.keptLines_text]
    rfl
  refine ⟨eq, ?_⟩
  rw [eq]
  exact lineList_carry up own (replayTargets_sublist up own)
    (fun _ mem => (carried_of_mem up own mem).2.2) (fun _ mem => (target_bounds up own mem).2)
    (Lines.lineList_new newBase) (Lines.lineList_new reviewed.text) 0

/-- Without upstream changes every reviewed change stays where it is. -/
theorem replayTargets_nil (changes : List Change) :
    replayTargets [] changes = changes.map fun change => (change, change.before) := by
  have stays : ∀ range : Range, translate (forward []) range = some range := by
    intro range
    have same : ∀ n : Nat, ((n : Int) + 0).toNat? = some n := fun n => by rw [Int.add_zero]; rfl
    simp only [translate, forward, List.map_nil, translateFrom, same]
    rfl
  simp [replayTargets, stays]

theorem replay_lines {d : Differ} (valid : d.Valid) (oldBase : Bytes) (reviewed : Reviewed)
    (newBase : Bytes) :
    Lines.new (replay d oldBase reviewed newBase).text =
      merge (Lines.new newBase) (Lines.new reviewed.text) 0
        (carry (replayTargets (upstreamChanges d oldBase newBase)
          (d.changes oldBase reviewed.text))) := by
  have own := valid oldBase reviewed.text
  unfold replay
  split_ifs with same
  · subst same
    have all := merge_take own
    rw [upstreamChanges, if_pos rfl, replayTargets_nil, carry, List.map_map]
    exact all.symm
  · have up := upstreamChanges_script valid oldBase newBase
    have written := lineList_replaySplice up own
    have upstream : d.changes oldBase newBase = upstreamChanges d oldBase newBase :=
      (if_neg same).symm
    rw [upstream, replayFrom_eq up own (List.Sublist.refl _) (Nat.zero_le _)
      (fun _ _ => Nat.zero_le _), Rebuild.finish_text, ← written.1,
      ← splitInclusive_flatten written.2]
    simp [Lines.new, HunkReview.writes, Rebuild.write, Rebuild.withDefault, Function.comp_def,
      HunkReview.originLine]

/-- Replaying carries over exactly the reviewed changes that no upstream change meets:
each replaces, where it lands, the base lines it replaced before, in order, and every
other line of the result is one of the new base. -/
theorem replay_conservative {d : Differ} (valid : d.Valid) (oldBase : Bytes) (reviewed : Reviewed)
    (newBase : Bytes) :
    ∃ targets : List (Change × Range),
      targets.map Prod.fst = (d.changes oldBase reviewed.text).filter (fun change =>
        !(upstreamChanges d oldBase newBase).any fun e => overlaps e.before change.before) ∧
      (∀ entry ∈ targets,
        translate (forward (upstreamChanges d oldBase newBase)) entry.1.before = some entry.2 ∧
        entry.2.start ≤ entry.2.stop ∧ entry.2.stop ≤ (Lines.new newBase).length ∧
        entry.2.cut (Lines.new newBase) = entry.1.before.cut (Lines.new oldBase)) ∧
      (targets.Pairwise fun a b => a.2.stop ≤ b.2.start) ∧
      Lines.new (replay d oldBase reviewed newBase).text =
        merge (Lines.new newBase) (Lines.new reviewed.text) 0 (carry targets) := by
  have up := upstreamChanges_script valid oldBase newBase
  have own := valid oldBase reviewed.text
  refine ⟨_, replayTargets_fst up own, fun entry mem => ?_, targets_in_order up own,
    replay_lines valid oldBase reviewed newBase⟩
  obtain ⟨_, found, carried⟩ := carried_of_mem up own mem
  have within := target_bounds up own mem
  exact ⟨found, within.1, within.2, (carried.cut_eq up).symm⟩

/-- "A" for "a" stays reviewed over a new base that drops the last of three lines. -/
theorem replay_conservative_dropped_line :
    ∃ targets : List (Change × Range),
      targets.map Prod.fst = (trimmedDiffer.changes [97, 10, 98, 10, 99, 10]
        [65, 10, 98, 10, 99, 10]).filter (fun change =>
          !(upstreamChanges trimmedDiffer [97, 10, 98, 10, 99, 10] [97, 10, 98, 10]).any
            fun e => overlaps e.before change.before) ∧
      Lines.new (replay trimmedDiffer [97, 10, 98, 10, 99, 10]
          ⟨[65, 10, 98, 10, 99, 10], .reviewerOnly⟩ [97, 10, 98, 10]).text =
        merge (Lines.new [97, 10, 98, 10]) (Lines.new [65, 10, 98, 10, 99, 10]) 0
          (carry targets) := by
  obtain ⟨targets, kept, _, _, lines⟩ := replay_conservative trimmedDiffer_valid
    [97, 10, 98, 10, 99, 10] ⟨[65, 10, 98, 10, 99, 10], .reviewerOnly⟩ [97, 10, 98, 10]
  exact ⟨targets, kept, lines⟩

end ProgressiveReviewer.Hunks
