import ProgressiveReviewer.Hunks.Splice

/-! Reopening the reviewed hunks a reviewer is shown. A shown hunk is the hull of
neighbouring reviewed changes that no open change touches, so it lies in one block the
open changes keep; going back through the open changes finds it again unless an open
change that only deletes lines sits right next to it. -/

namespace ProgressiveReviewer.Hunks

open Library Library.Extent

/-- A group of placed changes is the hull `whole` of reviewed changes, and the open
changes place what it adds at `current` without touching it. -/
structure GroupAt («open» : List Change) (group : List PlacedChange) (whole : Change)
    (current : Range) : Prop where
  first : ∃ first, group.head? = some first ∧ first.base.start = whole.before.start ∧
    first.current.start = current.start
  last : ∃ last, group.getLast? = some last ∧ last.base.stop = whole.before.stop ∧
    last.reviewed.stop = whole.after.stop ∧ last.current.stop = current.stop
  le : whole.after.start ≤ whole.after.stop
  placed : Placed 0 0 «open» whole.after current
  apart : ∀ e ∈ «open», Apart e.before whole.after

/-- `whole` is the hull of neighbouring edits among `changes`. -/
def HullOf (changes : List Change) (whole : Change) : Prop :=
  ∃ pre e es post, changes = pre ++ e :: es ++ post ∧ whole = hull e es

/-- What a shown reviewed hunk stands for: neighbouring reviewed changes, and the
place of the lines they add on the current file. -/
def Shows (reviewed «open» : List Change) (span : HunkSpan) (whole : Change) : Prop :=
  HullOf reviewed whole ∧ span.old = whole.before ∧ whole.after.start ≤ whole.after.stop ∧
    Placed 0 0 «open» whole.after span.new ∧ ∀ e ∈ «open», Apart e.before whole.after

theorem GroupAt.shows {reviewed «open» : List Change} {group : List PlacedChange}
    {whole : Change} {current : Range} {rows : HunkRows} {h : ReviewedHunk}
    (at_ : GroupAt «open» group whole current) (hullOf : HullOf reviewed whole)
    (mem : h ∈ (rows.hunk group).toList) : Shows reviewed «open» h.span whole := by
  obtain ⟨first, head, baseStart, currentStart⟩ := at_.first
  obtain ⟨last, tail, baseStop, _, currentStop⟩ := at_.last
  simp only [HunkRows.hunk, head, tail, Option.bind_eq_bind, Option.bind_some,
    Option.toList_some, List.mem_singleton] at mem
  subst mem
  refine ⟨hullOf, ?_, at_.le, ?_, at_.apart⟩
  · rw [baseStart, baseStop]
  · rw [currentStart, currentStop]
    exact at_.placed

theorem placeChange_eq_some {xs ys : Lines} {«open» : List Change} {change : Change}
    {placed : PlacedChange} (script : Script xs ys «open»)
    (le : change.after.start ≤ change.after.stop)
    (found : placeChange «open» change = some placed) :
    placed = ⟨change.before, change.after, placed.current⟩ ∧
      Placed 0 0 «open» change.after placed.current ∧
      ∀ e ∈ «open», Apart e.before change.after := by
  obtain ⟨current, landed, rfl⟩ := Option.map_eq_some_iff.mp found
  rcases translate_spec script le with ⟨_, none_found⟩ | ⟨clear, r', isPlaced, found'⟩
  · rw [none_found] at landed
    cases landed
  · rw [found'] at landed
    obtain rfl := Option.some.inj landed
    refine ⟨rfl, isPlaced, fun e mem => ?_⟩
    rw [List.any_eq_false] at clear
    exact overlaps_eq_false_iff.mp (Bool.eq_false_iff.mpr (clear e mem))

/-- A placed change that does not join starts a group of its own. -/
theorem GroupAt.single {«open» : List Change} {change : Change} {placed : PlacedChange}
    (le : change.after.start ≤ change.after.stop)
    (eq : placed = ⟨change.before, change.after, placed.current⟩)
    (isPlaced : Placed 0 0 «open» change.after placed.current)
    (apart : ∀ e ∈ «open», Apart e.before change.after) :
    GroupAt «open» [placed] change placed.current where
  first := ⟨placed, rfl, by rw [eq], rfl⟩
  last := ⟨placed, rfl, by rw [eq], by rw [eq], rfl⟩
  le := le
  placed := isPlaced
  apart := apart

/-- A placed change that joins a group extends it: no open change lies between. -/
theorem GroupAt.join {xs ys : Lines} {«open» : List Change} {group : List PlacedChange}
    {whole change : Change} {current : Range} {placed : PlacedChange}
    (script : Script xs ys «open») (at_ : GroupAt «open» group whole current)
    (behind : whole.after.stop < change.after.start)
    (le : change.after.start ≤ change.after.stop)
    (eq : placed = ⟨change.before, change.after, placed.current⟩)
    (isPlaced : Placed 0 0 «open» change.after placed.current)
    (apart : ∀ e ∈ «open», Apart e.before change.after)
    (joins : joinsGroup «open» (some placed) group = true) :
    GroupAt «open» (group ++ [placed]) (whole.join change)
      ⟨current.start, placed.current.stop⟩ := by
  obtain ⟨first, head, baseStart, currentStart⟩ := at_.first
  obtain ⟨last, tail, _, reviewedStop, _⟩ := at_.last
  have between : ∀ e ∈ «open», Apart e.before ⟨whole.after.stop, change.after.start⟩ := by
    intro e mem
    simp only [joinsGroup, tail, Bool.and_eq_true, Bool.not_eq_true', List.any_eq_false] at joins
    have clear := joins.2 e mem
    rw [reviewedStop, show placed.reviewed = change.after by rw [eq]] at clear
    exact overlaps_eq_false_iff.mp (Bool.eq_false_iff.mpr clear)
  refine ⟨⟨first, by simp [head], baseStart, currentStart⟩,
    ⟨placed, by simp, by rw [eq]; rfl, by rw [eq]; rfl, rfl⟩, ?_, ?_, ?_⟩
  · have := at_.le
    simp only [Edit.join]
    omega
  · exact at_.placed.join script isPlaced at_.le le behind between
  · intro e mem
    obtain ⟨gap, i, bound⟩ : ∃ gap i : Nat, i + gap ≤ e.before.start ∧
        e.before.start ≤ e.before.stop := ⟨0, 0, Nat.zero_le _, (script.bounds mem).2.2.1⟩
    exact Extent.Apart.join at_.le le bound.2 behind (at_.apart e mem) (between e mem)
      (apart e mem)

/-- A group is empty or the hull of the changes right before the ones left, the last
of which stops at `j`. -/
def Grouped («open» done : List Change) (group : List PlacedChange) (gap j : Nat) : Prop :=
  group = [] ∨ gap = 1 ∧ ∃ pre e es current, done = pre ++ e :: es ∧
    j = (hull e es).after.stop ∧ GroupAt «open» group (hull e es) current

theorem Grouped.shows {«open» done : List Change} {rows : HunkRows} {group : List PlacedChange}
    {gap j : Nat} {h : ReviewedHunk} (grouped : Grouped «open» done group gap j)
    (changes : List Change) (mem : h ∈ (rows.hunk group).toList) :
    ∃ whole, Shows (done ++ changes) «open» h.span whole := by
  rcases grouped with rfl | ⟨_, pre, e, es, current, rfl, _, at_⟩
  · simp [HunkRows.hunk] at mem
  · exact ⟨_, at_.shows ⟨pre, e, es, changes, by simp, rfl⟩ mem⟩

/-- Every shown reviewed hunk stands for neighbouring reviewed changes: each step of
the recursion flushes a group, extends it or starts one. -/
theorem shows_of_mem_from {xs ys zs : Lines} {«open» changes : List Change} (done : List Change)
    {rows : HunkRows} {group : List PlacedChange} {gap i j : Nat} {h : ReviewedHunk}
    (openScript : Script ys zs «open») (script : ScriptFrom xs ys gap i j changes)
    (grouped : Grouped «open» done group gap j)
    (mem : h ∈ reviewedHunksFrom rows «open» group changes) :
    ∃ whole, Shows (done ++ changes) «open» h.span whole := by
  induction changes generalizing group done gap i j with
  | nil => exact grouped.shows [] mem
  | cons change changes ih =>
    have fit := script.1
    have le := fit.after_le
    have again : ∀ {group' : List PlacedChange},
        Grouped «open» (done ++ [change]) group' 1 change.after.stop →
        h ∈ reviewedHunksFrom rows «open» group' changes →
        ∃ whole, Shows (done ++ change :: changes) «open» h.span whole := by
      intro group' grouped' mem'
      simpa using ih _ script.2 grouped' mem'
    rw [reviewedHunksFrom] at mem
    cases found : placeChange «open» change with
    | none =>
      have clear : joinsGroup «open» none group = false := rfl
      simp only [found, clear, Bool.false_eq_true, if_false, Option.toList_none,
        List.mem_append] at mem
      rcases mem with mem | mem
      · exact grouped.shows (change :: changes) mem
      · exact again (Or.inl rfl) mem
    | some placed =>
      obtain ⟨eq, isPlaced, apart⟩ := placeChange_eq_some openScript le found
      simp only [found, Option.toList_some] at mem
      by_cases joins : joinsGroup «open» (some placed) group = true
      · simp only [joins, if_true] at mem
        rcases grouped with rfl | ⟨rfl, pre, e, es, current, rfl, used, at_⟩
        · simp [joinsGroup] at joins
        · have start := fit.after_start
          have joined := at_.join openScript (by omega) le eq isPlaced apart joins
          rw [← hull_concat] at joined
          exact again (Or.inr ⟨rfl, pre, e, es ++ [change], _, by simp, by
            rw [hull_concat]; rfl, joined⟩) mem
      · simp only [joins, Bool.false_eq_true, if_false, List.mem_append] at mem
        rcases mem with mem | mem
        · exact grouped.shows (change :: changes) mem
        · exact again (Or.inr ⟨rfl, done, change, [], _, rfl, rfl,
            GroupAt.single le eq isPlaced apart⟩) mem

namespace HunkReview

variable {d : Differ} (self : HunkReview)

theorem shows_of_mem (valid : d.Valid) {rows : List DiffRow} {age : MarkAge} {h : ReviewedHunk}
    (shown : h ∈ (self.hunks d rows age).reviewed) :
    ∃ whole, Shows (d.changes self.base self.reviewed) (d.changes self.reviewed self.current)
      h.span whole := by
  unfold hunks at shown
  split_ifs at shown
  · simp at shown
  · exact shows_of_mem_from [] (valid self.reviewed self.current)
      (valid self.base self.reviewed) (Or.inl rfl) shown

end HunkReview

/-- Going back through the open changes finds a placed range again, unless one of them
only deletes lines right before or after it. -/
theorem meets_backward_iff {xs ys : Lines} {«open» : List Change} {r r' : Range} {e : Change}
    (script : Script xs ys «open») (placed : Placed 0 0 «open» r r') (le : r.start ≤ r.stop)
    (mem : e ∈ «open») (apart : Apart e.before r) :
    overlaps e.after r' = true ↔
      e.after.isEmpty = true ∧ (e.after.start = r'.start ∨ e.after.start = r'.stop) := by
  have size := placed.size
  have bounds := script.bounds mem
  rw [overlaps_eq_true_iff, isEmpty_eq_true]
  unfold Apart at *
  rcases placed.side script mem with ⟨before, after, same⟩ | ⟨before, after, same⟩
  · split_ifs at * <;> omega
  · split_ifs at * <;> omega

/-- Whether an open change that only deletes lines sits right before or after a range
of the current file. -/
def deletesBeside («open» : List Change) (range : Range) : Bool :=
  «open».any fun change => change.after.isEmpty &&
    (decide (change.after.start = range.start) || decide (change.after.start = range.stop))

namespace HunkReview

variable {d : Differ} (self : HunkReview)

/-- Reopening the hunk gives a reviewed version that has the base lines `span.old`
instead of the lines the hunk covers, and every other line of the one before. -/
def Reopens (d : Differ) (self : HunkReview) (span : HunkSpan) : Prop :=
  ∃ version whole, self.unreview d span = some version ∧
    HullOf (d.changes self.base self.reviewed) whole ∧ whole.before = span.old ∧
    whole.after.cut (Lines.new self.reviewed) = span.new.cut (Lines.new self.current) ∧
    Lines.new (self.textOf version) =
      cut (Lines.new self.reviewed) ⟨0, whole.after.start⟩ ++
        (span.old.cut (Lines.new self.base) ++ (Lines.new self.reviewed).drop whole.after.stop)

theorem translate_backward_iff (valid : d.Valid) {span : HunkSpan} {whole : Change}
    (shows_ : Shows (d.changes self.base self.reviewed) (d.changes self.reviewed self.current)
      span whole) :
    translate (backward (d.changes self.reviewed self.current)) span.new =
      if deletesBeside (d.changes self.reviewed self.current) span.new then none
      else some whole.after := by
  obtain ⟨_, _, le, placed, apart⟩ := shows_
  have script := valid self.reviewed self.current
  have size := placed.size
  rw [backward_eq, translate_of_placed script.swap (placed.swap script) (by omega)]
  have same : ((d.changes self.reviewed self.current).map Edit.swap).any
      (fun e => overlaps e.before span.new) =
      deletesBeside (d.changes self.reviewed self.current) span.new := by
    rw [List.any_map, deletesBeside, Bool.eq_iff_iff, List.any_eq_true, List.any_eq_true]
    refine exists_congr fun e => and_congr_right fun mem => ?_
    simpa using meets_backward_iff script placed le mem (apart e mem)
  rw [same]

/-- The lines of the reviewed version with the base lines of neighbouring reviewed
changes taken back. -/
theorem lines_unreviewSplice (valid : d.Valid) {whole : Change}
    (hullOf : HullOf (d.changes self.base self.reviewed) whole) :
    let written := (self.unreviewSplice whole.after whole.before).written.map self.originText
    written = cut (Lines.new self.reviewed) ⟨0, whole.after.start⟩ ++
        (whole.before.cut (Lines.new self.base) ++ (Lines.new self.reviewed).drop whole.after.stop) ∧
      LineList isNewline written := by
  obtain ⟨pre, e, es, post, eq, rfl⟩ := hullOf
  have script : Script (Lines.new self.base) (Lines.new self.reviewed)
      (pre ++ hull e es :: post) := by
    have script := valid self.base self.reviewed
    rw [eq] at script
    exact ScriptFrom.hull_within script
  have bounds := script.bounds (e := hull e es) (by simp)
  have pieces : (self.unreviewSplice (hull e es).after (hull e es).before).written.map
      self.originText = cut (Lines.new self.reviewed) ⟨0, (hull e es).after.start⟩ ++
        ((hull e es).before.cut (Lines.new self.base) ++
          (Lines.new self.reviewed).drop (hull e es).after.stop) := by
    simp only [unreviewSplice, List.map_append, ← cut_map, keptLines_text, restoredLines_text,
      cut_to_end]
  refine ⟨pieces, ?_⟩
  have sub : [(hull e es).swap].Sublist ((pre ++ hull e es :: post).map Edit.swap) := by
    simp
  have taken := lineList_take sub script.swap (Lines.lineList_new self.reviewed)
    (Lines.lineList_new self.base)
  rw [pieces]
  simpa [merge, Choice.take, elements_positions _ _ bounds.2.2.2.2.1] using taken

/-- A shown reviewed hunk can be reopened exactly when no open change beside it only
deletes lines. -/
theorem reopens_shown_iff (valid : d.Valid) {rows : List DiffRow} {age : MarkAge}
    {h : ReviewedHunk} (shown : h ∈ (self.hunks d rows age).reviewed) :
    self.Reopens d h.span ↔
      deletesBeside (d.changes self.reviewed self.current) h.span.new = false := by
  obtain ⟨whole, shows_⟩ := self.shows_of_mem valid shown
  have landed := self.translate_backward_iff valid shows_
  obtain ⟨hullOf, old, _, placed, _⟩ := shows_
  constructor
  · rintro ⟨version, _, found, _⟩
    by_contra beside
    rw [Bool.not_eq_false] at beside
    rw [self.unreview_eq d .reviewer, landed, if_pos beside] at found
    cases found
  · intro clear
    have lines := self.lines_unreviewSplice valid hullOf
    have bounds : whole.before.start ≤ whole.before.stop ∧
        whole.before.stop ≤ (Lines.new self.base).length ∧
        whole.after.start ≤ whole.after.stop ∧
        whole.after.stop ≤ (Lines.new self.reviewed).length := by
      obtain ⟨pre, e, es, post, eq, rfl⟩ := hullOf
      have script := valid self.base self.reviewed
      rw [eq] at script
      have bounds := script.hull_within.bounds (e := hull e es) (by simp)
      exact ⟨bounds.2.2.1, bounds.2.2.2.2.1, bounds.2.2.2.1, bounds.2.2.2.2.2.1⟩
    rw [clear] at landed
    refine ⟨self.version (self.spliced d .reviewer (self.unreviewSplice whole.after whole.before)),
      whole, ?_, hullOf, old.symm,
      placed.cut_eq (valid self.reviewed self.current), ?_⟩
    · rw [self.unreview_eq d .reviewer, landed, old]
      simp only [Bool.false_eq_true, if_false, Option.bind_some]
      rw [if_pos ⟨by omega, bounds.2.2.2, bounds.1, bounds.2.1⟩]
    · rw [textOf_version, spliced_text, Lines.new, splitInclusive_flatten lines.2, old, lines.1]

/-- The hunk "a" → "A" of a file whose next line the current file deletes. -/
theorem unreview_beside_deletion :
    let self := HunkReview.new [97, 10, 98, 10, 99, 10] [65, 10, 98, 10, 99, 10] [65, 10, 99, 10]
    let h : ReviewedHunk := ⟨⟨⟨0, 1⟩, ⟨0, 1⟩⟩, [.delete 1 "-a", .add 1 "+A"]⟩
    trimmedDiffer.Valid ∧ h ∈ (self.hunks trimmedDiffer
        [.hunk 1 3 1 2, .context 1 1 " A", .delete 2 "-b", .context 3 2 " c"] .current).reviewed ∧
      self.unreview trimmedDiffer h.span = none :=
  ⟨trimmedDiffer_valid, by decide, by decide⟩

/-- The same hunk while the current file rewrites the last line. -/
theorem reopens_beside_rewrite :
    let self := HunkReview.new [97, 10, 98, 10, 99, 10] [65, 10, 98, 10, 99, 10]
      [65, 10, 98, 10, 67, 10]
    self.Reopens trimmedDiffer ⟨⟨0, 1⟩, ⟨0, 1⟩⟩ := by
  intro self
  have shown : (⟨⟨⟨0, 1⟩, ⟨0, 1⟩⟩, [.delete 1 "-a", .add 1 "+A"]⟩ : ReviewedHunk) ∈
      (self.hunks trimmedDiffer [] .current).reviewed := by decide
  exact (self.reopens_shown_iff trimmedDiffer_valid shown).mpr (by decide)

end HunkReview

end ProgressiveReviewer.Hunks
