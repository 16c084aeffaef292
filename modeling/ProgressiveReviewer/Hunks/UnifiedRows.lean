import ProgressiveReviewer.Hunks.Shown

/-! The rows of the program's own diffs: they show the diff, one hunk for each group of edits. -/

namespace ProgressiveReviewer.Hunks

open Library Library.Extent Marks

/-- The row of a line, and the row that says it has no newline. -/
def lineRows (row : String → DiffRow) (marker : Char) (line : Bytes) : List DiffRow :=
  row (rowText marker (some line)) :: (unendedRows line).map .metadata

def contextRows : Nat → Nat → Lines → List DiffRow
  | _, _, [] => []
  | i, j, line :: lines =>
    lineRows (.context (i + 1) (j + 1)) ' ' line ++ contextRows (i + 1) (j + 1) lines

def deleteRows : Nat → Lines → List DiffRow
  | _, [] => []
  | i, line :: lines => lineRows (.delete (i + 1)) '-' line ++ deleteRows (i + 1) lines

def addRows : Nat → Lines → List DiffRow
  | _, [] => []
  | j, line :: lines => lineRows (.add (j + 1)) '+' line ++ addRows (j + 1) lines

/-- The rows of a hunk between two pairs of positions. -/
def bodyRows (before after : Lines) (stop : Nat) : Nat → Nat → List Change → List DiffRow
  | i, j, [] => contextRows i j (cut before ⟨i, stop⟩)
  | i, j, change :: changes =>
    contextRows i j (cut before ⟨i, change.before.start⟩) ++
      deleteRows change.before.start (change.before.cut before) ++
      addRows change.after.start (change.after.cut after) ++
      bodyRows before after stop change.before.stop change.after.stop changes

def frameSection (before after : Lines) (frame : Frame) : Section :=
  ⟨frame.around, bodyRows before after frame.around.before.stop frame.around.before.start
    frame.around.after.start frame.edits⟩

def pathRows (path : String) (file : ChangedFile) : List DiffRow :=
  [.fileHeader file.oldPath file.newPath
      (String.ofList (dropReturn ("diff --git a/" ++ path ++ " b/" ++ path).toList)),
    .metadata (String.ofList (dropReturn ("--- a/" ++ path).toList)),
    .metadata (String.ofList (dropReturn ("+++ b/" ++ path).toList))]

/-- The rows of the whole diff. -/
def unifiedRows (d : Differ) (path : String) (file : ChangedFile) (before after : Bytes) :
    List DiffRow :=
  let changes := d.changes before after
  if changes = [] then []
  else pathRows path file ++ ((frames (Lines.new before) changes).map
    (frameSection (Lines.new before) (Lines.new after))).flatMap Section.all

section Shown

variable {xs ys : Lines} {i j i' j' : Nat}

theorem shows_contextRows {lines rest rest' : Lines} (old : xs.drop i = lines ++ rest)
    (new : ys.drop j = lines ++ rest') :
    ShowsLines xs ys (i + lines.length) (j + lines.length) i j (contextRows i j lines) := by
  induction lines generalizing i j with
  | nil => exact ⟨rfl, rfl⟩
  | cons line lines ih =>
    have shown := ih (current_line old).2 (current_line new).2
    rw [Nat.add_assoc, Nat.add_assoc, Nat.add_comm 1] at shown
    exact ⟨⟨rfl, rfl, line, (current_line old).1, (current_line new).1, rfl⟩, shown.said⟩

theorem shows_deleteRows {lines rest : Lines} (ys : Lines) (j : Nat) (old : xs.drop i = lines ++ rest) :
    ShowsLines xs ys (i + lines.length) j i j (deleteRows i lines) := by
  induction lines generalizing i with
  | nil => exact ⟨rfl, rfl⟩
  | cons line lines ih =>
    have shown := ih (current_line old).2
    rw [Nat.add_assoc, Nat.add_comm 1] at shown
    exact ⟨⟨rfl, line, (current_line old).1, rfl⟩, shown.said⟩

theorem shows_addRows {lines rest : Lines} (xs : Lines) (i : Nat) (new : ys.drop j = lines ++ rest) :
    ShowsLines xs ys i (j + lines.length) i j (addRows j lines) := by
  induction lines generalizing j with
  | nil => exact ⟨rfl, rfl⟩
  | cons line lines ih =>
    have shown := ih (current_line new).2
    rw [Nat.add_assoc, Nat.add_comm 1] at shown
    exact ⟨⟨rfl, line, (current_line new).1, rfl⟩, shown.said⟩

theorem shows_kept (kept : Kept xs ys i j i' j') :
    ShowsLines xs ys i' j' i j (contextRows i j (cut xs ⟨i, i'⟩)) := by
  have size : (cut xs ⟨i, i'⟩).length = i' - i := cut_length xs ⟨i, i'⟩ kept.bound
  have := kept.le
  have := kept.shift
  have shown := shows_contextRows (cut_append_drop xs kept.le).symm
    ((cut_append_drop ys kept.le').symm.trans (congrArg (· ++ _) kept.same.symm))
  rwa [size, Nat.add_sub_cancel' kept.le, show j + (i' - i) = j' by omega] at shown

/-- The rows of a hunk show its lines. -/
theorem shows_bodyRows {changes : List Change} (body : Body xs ys i j changes i' j') :
    ShowsLines xs ys i' j' i j (bodyRows xs ys i' i j changes) := by
  induction changes generalizing i j with
  | nil => exact shows_kept body
  | cons change changes ih =>
    obtain ⟨kept, le, le', bound, bound', -, body⟩ := body
    have removed := shows_deleteRows ys change.after.start
      (cut_append_drop xs le).symm
    have added := shows_addRows xs change.before.stop (cut_append_drop ys le').symm
    have size : (change.before.cut xs).length = change.before.stop - change.before.start :=
      cut_length xs change.before bound
    have size' : (change.after.cut ys).length = change.after.stop - change.after.start :=
      cut_length ys change.after bound'
    rw [size, Nat.add_sub_cancel' le] at removed
    rw [size', Nat.add_sub_cancel' le'] at added
    rw [bodyRows]
    exact (((shows_kept kept).append removed).append added).append (ih body)

theorem shows_frames {frames : List Frame} {gap : Nat} (framed : Framed xs ys gap i j frames) :
    ShowsSections xs ys gap i j (frames.map (frameSection xs ys)) := by
  induction frames generalizing gap i j with
  | nil => exact framed
  | cons frame frames ih =>
    obtain ⟨far, kept, -, body, framed⟩ := framed
    exact ⟨far, kept, shows_bodyRows body, ih framed⟩

/-- The rows of a diff show it. -/
theorem shows_unifiedRows {d : Differ} (valid : d.Valid) (path : String) (file : ChangedFile)
    (before after : Bytes) : ShowsDiff (Lines.new before) (Lines.new after)
      (unifiedRows d path file before after) := by
  unfold unifiedRows
  dsimp only
  split_ifs with none
  · have same := valid.eq_of_nil none
    subst same
    exact ⟨[], [], rfl, fun _ mem => (List.not_mem_nil mem).elim,
      kept_to_end rfl (Nat.zero_le _) (Nat.zero_le _)⟩
  · exact ⟨pathRows path file, _, rfl, by simp [pathRows, DiffRow.isSaid],
      shows_frames (framed_frames (valid before after))⟩

end Shown

/-! ## The hunk of a group -/

/-- Where a change starts and where it ends on both sides. -/
def starts (change : Change) : Position := ⟨change.before.start, change.after.start⟩

def stops (change : Change) : Position := ⟨change.before.stop, change.after.stop⟩

def changedLinesOf (changes : List Change) : Nat :=
  (changes.map fun change => change.before.size + change.after.size).sum

namespace HunkWalk

theorem foldl_said (walk : HunkWalk) (texts : List String) :
    (texts.map DiffRow.metadata).foldl push walk = walk := by
  induction texts with
  | nil => rfl
  | cons text texts ih => exact ih

theorem foldl_contextRows (walk : HunkWalk) (i j : Nat) (lines : Lines) :
    (contextRows i j lines).foldl push walk =
      { walk with «at» := ⟨walk.at.old + lines.length, walk.at.new + lines.length⟩ } := by
  induction lines generalizing walk i j with
  | nil => rfl
  | cons line lines ih =>
    rw [contextRows, lineRows, List.cons_append, List.foldl_cons, List.foldl_append, foldl_said, ih]
    simp [push, step, Nat.add_comm, Nat.add_left_comm]

/-- Rows of one side move the walk along it; the first one changed starts the span. -/
theorem foldl_deleteRows (walk : HunkWalk) (i : Nat) (lines : Lines) :
    (deleteRows i lines).foldl push walk = if lines = [] then walk else
      { «at» := ⟨walk.at.old + lines.length, walk.at.new⟩, first := some (walk.first.getD walk.at),
        last := some ⟨walk.at.old + lines.length, walk.at.new⟩,
        changed := walk.changed + lines.length } := by
  induction lines generalizing walk i with
  | nil => rfl
  | cons line lines ih =>
    rw [deleteRows, lineRows, List.cons_append, List.foldl_cons, List.foldl_append, foldl_said, ih,
      if_neg (List.cons_ne_nil line lines)]
    split_ifs with last
    · simp [push, step, last]
    · simp [push, step, Nat.add_comm, Nat.add_left_comm]

theorem foldl_addRows (walk : HunkWalk) (j : Nat) (lines : Lines) :
    (addRows j lines).foldl push walk = if lines = [] then walk else
      { «at» := ⟨walk.at.old, walk.at.new + lines.length⟩, first := some (walk.first.getD walk.at),
        last := some ⟨walk.at.old, walk.at.new + lines.length⟩,
        changed := walk.changed + lines.length } := by
  induction lines generalizing walk j with
  | nil => rfl
  | cons line lines ih =>
    rw [addRows, lineRows, List.cons_append, List.foldl_cons, List.foldl_append, foldl_said, ih,
      if_neg (List.cons_ne_nil line lines)]
    split_ifs with last
    · simp [push, step, last]
    · simp [push, step, Nat.add_comm, Nat.add_left_comm]

/-- The rows of one change. -/
theorem foldl_change {xs ys : Lines} {change : Change} (le : change.before.start ≤ change.before.stop)
    (le' : change.after.start ≤ change.after.stop) (bound : change.before.stop ≤ xs.length)
    (bound' : change.after.stop ≤ ys.length)
    (some_ : change.before.start < change.before.stop ∨ change.after.start < change.after.stop)
    {walk : HunkWalk} (here : walk.at = starts change) :
    (deleteRows change.before.start (change.before.cut xs) ++
      addRows change.after.start (change.after.cut ys)).foldl push walk =
      { «at» := stops change, first := some (walk.first.getD (starts change)),
        last := some (stops change),
        changed := walk.changed + (change.before.size + change.after.size) } := by
  have size : (change.before.cut xs).length = change.before.size := cut_length xs change.before bound
  have size' : (change.after.cut ys).length = change.after.size := cut_length ys change.after bound'
  have whole : change.before.start + change.before.size = change.before.stop :=
    Nat.add_sub_cancel' le
  have whole' : change.after.start + change.after.size = change.after.stop :=
    Nat.add_sub_cancel' le'
  rw [List.foldl_append, foldl_deleteRows, foldl_addRows]
  by_cases removes : change.before.cut xs = []
  · have zero : change.before.size = 0 := by rw [← size, removes, List.length_nil]
    have adds : change.after.cut ys ≠ [] := by
      intro none
      rw [none, List.length_nil] at size'
      omega
    have still : change.before.start = change.before.stop := by omega
    rw [if_pos removes, if_neg adds, size', here]
    simp [starts, stops, whole', still, zero]
  · rw [if_neg removes, size, here]
    split_ifs with adds
    · have zero : change.after.size = 0 := by rw [← size', adds, List.length_nil]
      have still : change.after.start = change.after.stop := by omega
      simp [starts, stops, whole, still, zero]
    · simp [starts, stops, whole, whole', size', Nat.add_assoc]

/-- The rows of a hunk: its span is that of its changes. -/
theorem foldl_bodyRows {xs ys : Lines} {i j i' j' : Nat} {changes : List Change}
    (body : Body xs ys i j changes i' j') (walk : HunkWalk) (here : walk.at = ⟨i, j⟩) :
    (bodyRows xs ys i' i j changes).foldl push walk =
      { «at» := ⟨i', j'⟩, first := walk.first.or (changes.head?.map starts),
        last := (changes.getLast?.map stops).or walk.last,
        changed := walk.changed + changedLinesOf changes } := by
  have keeps : ∀ {walk : HunkWalk} {i j i' j'}, walk.at = ⟨i, j⟩ → Kept xs ys i j i' j' →
      (contextRows i j (cut xs ⟨i, i'⟩)).foldl push walk = { walk with «at» := ⟨i', j'⟩ } := by
    intro walk i j i' j' here kept
    have size : (cut xs ⟨i, i'⟩).length = i' - i := cut_length xs ⟨i, i'⟩ kept.bound
    have := kept.le
    have := kept.shift
    rw [foldl_contextRows, here, size, Nat.add_sub_cancel' kept.le,
      show j + (i' - i) = j' by omega]
  induction changes generalizing i j walk with
  | nil =>
    rw [bodyRows, keeps here body]
    simp [changedLinesOf]
  | cons change changes ih =>
    obtain ⟨kept, le, le', bound, bound', some_, body⟩ := body
    rw [bodyRows, List.append_assoc (contextRows _ _ _), List.append_assoc, List.foldl_append,
      List.foldl_append, keeps here kept, foldl_change le le' bound bound' some_ rfl, ih body _ rfl]
    have last : ((change :: changes).getLast?.map stops).or walk.last =
        (changes.getLast?.map stops).or (some (stops change)) := by
      cases changes with
      | nil => rfl
      | cons next changes =>
        rw [List.getLast?_cons_cons, List.getLast?_eq_some_getLast (List.cons_ne_nil next changes)]
        rfl
    rw [last]
    cases walk.first <;> simp [changedLinesOf, Nat.add_assoc]

end HunkWalk

/-- The hunk a group of edits makes: from its first changed line to its last on both sides. -/
def GroupHunk (group : List Change) (hunk : OpenHunk) : Prop :=
  ∃ first last, group.head? = some first ∧ group.getLast? = some last ∧
    hunk = ⟨⟨⟨first.before.start, last.before.stop⟩, ⟨first.after.start, last.after.stop⟩⟩, false,
      changedLinesOf group⟩

theorem groupHunk_frameSection {xs ys : Lines} {frame : Frame} (some_ : frame.edits ≠ [])
    (body : Body xs ys frame.around.before.start frame.around.after.start frame.edits
      frame.around.before.stop frame.around.after.stop) :
    ∃ hunk, (frameSection xs ys frame).hunk = some hunk ∧ GroupHunk frame.edits hunk := by
  obtain ⟨first, isFirst⟩ : ∃ first, frame.edits.head? = some first :=
    ⟨_, List.head?_eq_some_head some_⟩
  obtain ⟨last, isLast⟩ : ∃ last, frame.edits.getLast? = some last :=
    ⟨_, List.getLast?_eq_some_getLast some_⟩
  have walked := HunkWalk.foldl_bodyRows body ⟨⟨_, _⟩, none, none, 0⟩ rfl
  rw [isFirst, isLast] at walked
  refine ⟨_, ?_, first, last, isFirst, isLast, rfl⟩
  rw [Section.hunk, Section.start_header, Option.map_some, Option.bind_some]
  refine (congrArg HunkWalk.finish walked).trans ?_
  simp [HunkWalk.finish, starts, stops]

/-- Each group makes one hunk. -/
theorem groupHunks_frames {xs ys : Lines} {gap i j : Nat} {groups : List (List Change)}
    (framed : Framed xs ys gap i j (groups.flatMap (framedGroup context xs.length)))
    (nonempty : [] ∉ groups) :
    List.Forall₂ GroupHunk groups (((groups.flatMap (framedGroup context xs.length)).map
      (frameSection xs ys)).filterMap Section.hunk) := by
  induction groups generalizing gap i j with
  | nil => exact .nil
  | cons group groups ih =>
    obtain ⟨some_, nonempty⟩ := not_or.mp (mt List.mem_cons.mpr nonempty)
    obtain ⟨frame, made, edits⟩ : ∃ frame, framedGroup context xs.length group = [frame] ∧
        frame.edits = group := by
      have isFirst := List.head?_eq_some_head (Ne.symm some_)
      have isLast := List.getLast?_eq_some_getLast (Ne.symm some_)
      refine ⟨⟨frameOf context xs.length (group.head (Ne.symm some_)) (group.getLast (Ne.symm some_)),
        group⟩, ?_, rfl⟩
      rw [framedGroup, isFirst, isLast]
    rw [List.flatMap_cons, made, List.singleton_append] at framed ⊢
    obtain ⟨-, -, filled, body, framed⟩ := framed
    obtain ⟨hunk, found, grouped⟩ := groupHunk_frameSection filled body
    rw [List.map_cons, List.filterMap_cons, found]
    exact .cons (edits ▸ grouped) (ih framed nonempty)

/-- The hunks of the program's own diff are the groups of edits it was made of. -/
theorem openHunks_unifiedRows {d : Differ} (valid : d.Valid) (path : String) (file : ChangedFile)
    (before after : Bytes) : List.Forall₂ GroupHunk (hunkGroups (d.changes before after))
      (openHunks (unifiedRows d path file before after)) := by
  have script := valid before after
  have framed := framed_frames script
  unfold unifiedRows
  generalize d.changes before after = changes at script framed
  dsimp only
  split_ifs with none
  · rw [none]
    exact .nil
  · rw [openHunks_eq (by simp [pathRows, DiffRow.isSaid]) (shows_frames framed)]
    exact groupHunks_frames framed (List.nil_notMem_splitBy _ changes)

end ProgressiveReviewer.Hunks
