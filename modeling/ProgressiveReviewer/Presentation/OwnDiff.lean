import ProgressiveReviewer.Presentation.Folded

/-! The rows of the program's own diffs: no line they add lies in a reviewed hunk. -/

namespace ProgressiveReviewer.Presentation

open Library Library.Extent Hunks DiffPresentation Marks

variable {d : Differ}

def ownParts (d : Differ) (before after : Bytes) : List Section :=
  if d.changes before after = [] then []
  else (frames (Lines.new before) (d.changes before after)).map
    (frameSection (Lines.new before) (Lines.new after))

/-- A frame goes around edits of the script, from one to another. -/
theorem mem_frames {before after : Lines} {changes : List Change} {frame : Frame}
    (script : Script before after changes) (mem : frame ∈ frames before changes) :
    (∀ edit ∈ frame.edits, edit ∈ changes) ∧ ∃ first ∈ changes, ∃ last ∈ changes,
      frame.around = frameOf context before.length first last ∧
        first.after.start ≤ last.after.stop := by
  obtain ⟨group, held, mem⟩ := List.mem_flatMap.mp mem
  have flat : (hunkGroups changes).flatten = changes := List.flatten_splitBy _ changes
  have within : group.Sublist changes := flat ▸ List.sublist_flatten_of_mem held
  have ordered := script.pairwise.sublist within
  cases group with
  | nil => cases mem
  | cons first rest =>
    have some_ := List.cons_ne_nil first rest
    have isLast := List.getLast?_eq_some_getLast some_
    obtain rfl : frame = ⟨frameOf context before.length first ((first :: rest).getLast some_),
        first :: rest⟩ := by
      rw [framedGroup, isLast] at mem
      exact List.mem_singleton.mp mem
    have last := List.getLast_mem some_
    refine ⟨within.subset, first, within.subset (.head _), _, within.subset last, rfl, ?_⟩
    have low := script.bounds (within.subset (List.mem_cons_self (a := first) (l := rest)))
    have high := script.bounds (within.subset last)
    rcases List.mem_cons.mp last with same | later
    · rw [same]
      exact low.2.2.2.1
    · have apart := (List.pairwise_cons.mp ordered).1 _ later
      omega

/-! What the rows of a hunk say. -/

section Rows

variable {xs ys : Lines} {i j stop : Nat} {row : DiffRow}

theorem mem_lineRows {make : String → DiffRow} {marker : Char} {line : Bytes}
    (mem : row ∈ lineRows make marker line) :
    row = make (rowText marker (some line)) ∨ row = .metadata "\\ No newline at end of file" := by
  rw [lineRows, unendedRows] at mem
  split_ifs at mem
  · exact Or.inl (List.mem_singleton.mp mem)
  · rcases List.mem_cons.mp mem with rfl | mem
    · exact Or.inl rfl
    · exact Or.inr (List.mem_singleton.mp mem)

/-- The rows of a hunk: lines, and the note of a missing newline. -/
theorem mem_bodyRows {changes : List Change} (mem : row ∈ bodyRows xs ys stop i j changes) :
    row = .metadata "\\ No newline at end of file" ∨
      (∃ oldLine newLine text, row = .context oldLine newLine text) ∨
      (∃ line text, row = .delete line text) ∨
      ∃ change ∈ changes, ∃ line text, row = .add line text ∧ change.after.start < line ∧
        line ≤ change.after.stop := by
  have contexts : ∀ {i j : Nat} {lines : Lines}, row ∈ contextRows i j lines →
      row = .metadata "\\ No newline at end of file" ∨
        ∃ oldLine newLine text, row = .context oldLine newLine text := by
    intro i j lines mem
    induction lines generalizing i j with
    | nil => cases mem
    | cons line lines ih =>
      rcases List.mem_append.mp mem with mem | mem
      · exact (mem_lineRows mem).symm.imp id fun same => ⟨_, _, _, same⟩
      · exact ih mem
  have deletes : ∀ {i : Nat} {lines : Lines}, row ∈ deleteRows i lines →
      row = .metadata "\\ No newline at end of file" ∨ ∃ line text, row = .delete line text := by
    intro i lines mem
    induction lines generalizing i with
    | nil => cases mem
    | cons line lines ih =>
      rcases List.mem_append.mp mem with mem | mem
      · exact (mem_lineRows mem).symm.imp id fun same => ⟨_, _, same⟩
      · exact ih mem
  have adds : ∀ {j : Nat} {lines : Lines}, row ∈ addRows j lines →
      row = .metadata "\\ No newline at end of file" ∨
        ∃ line text, row = .add line text ∧ j < line ∧ line ≤ j + lines.length := by
    intro j lines mem
    induction lines generalizing j with
    | nil => cases mem
    | cons line lines ih =>
      rw [List.length_cons]
      rcases List.mem_append.mp mem with mem | mem
      · exact (mem_lineRows mem).symm.imp id fun same => ⟨_, _, same, by omega, by omega⟩
      · rcases ih mem with same | ⟨number, text, same, low, high⟩
        · exact Or.inl same
        · exact Or.inr ⟨number, text, same, by omega, by omega⟩
  induction changes generalizing i j with
  | nil => exact (contexts mem).imp id Or.inl
  | cons change changes ih =>
    rw [bodyRows, List.mem_append, List.mem_append, List.mem_append] at mem
    obtain ((mem | mem) | mem) | mem := mem
    · exact (contexts mem).imp id Or.inl
    · exact (deletes mem).imp id fun found => Or.inr (Or.inl found)
    · rcases adds mem with same | ⟨line, text, same, low, high⟩
      · exact Or.inl same
      · have size : (change.after.cut ys).length ≤ change.after.stop - change.after.start := by
          rw [cut]
          exact List.length_take_le _ _
        exact Or.inr (Or.inr (Or.inr ⟨change, .head _, line, text, same, low, by omega⟩))
    · refine (ih mem).imp id (Or.imp id (Or.imp id ?_))
      rintro ⟨change, mem, found⟩
      exact ⟨change, .tail _ mem, found⟩

theorem changes_bodyRows {first : Change} {rest : List Change} {i' j' : Nat}
    (body : Body xs ys i j (first :: rest) i' j') :
    (bodyRows xs ys i' i j (first :: rest)).any isChanged = true := by
  obtain ⟨-, le, le', bound, bound', some_, -⟩ := body
  have rows : ∀ {make : String → DiffRow} {marker : Char} {line : Bytes},
      isChanged (make (rowText marker (some line))) = true →
        (lineRows make marker line).any isChanged = true := fun changed => by
    rw [lineRows, List.any_cons, changed, Bool.true_or]
  rw [bodyRows, List.any_append, List.any_append, List.any_append]
  rcases some_ with some_ | some_
  · have size := cut_length xs first.before bound
    cases held : first.before.cut xs with
    | nil =>
      rw [held, List.length_nil, Extent.size] at size
      omega
    | cons line lines =>
      rw [deleteRows, List.any_append, rows rfl]
      simp
  · have size := cut_length ys first.after bound'
    cases held : first.after.cut ys with
    | nil =>
      rw [held, List.length_nil, Extent.size] at size
      omega
    | cons line lines =>
      rw [addRows, List.any_append, rows rfl]
      simp

end Rows

/-! The diff as a whole. -/

/-- Said texts name no new or deleted file. -/
theorem ofRow_eq_none {text : String} {char : Char} {rest : List Char}
    (starts : text.toList = char :: rest) (new : char ≠ 'n') (deleted : char ≠ 'd') :
    WholeFile.ofRow (.metadata text) = none := by
  rw [WholeFile.ofRow, starts, if_neg, if_neg]
  · simp [deleted.symm]
  · simp [new.symm]

theorem ofRow_dropReturn {char next : Char} {rest : List Char} (new : char ≠ 'n')
    (deleted : char ≠ 'd') :
    WholeFile.ofRow (.metadata (String.ofList (dropReturn (char :: next :: rest)))) = none := by
  have starts : ∃ more, dropReturn (char :: next :: rest) = char :: more := by
    rw [dropReturn, Parsers.stripLast]
    split_ifs
    · exact ⟨_, rfl⟩
    · exact ⟨_, rfl⟩
  obtain ⟨more, starts⟩ := starts
  exact ofRow_eq_none (by rw [String.toList_ofList, starts]) new deleted

theorem detect_own (path : String) (file : ChangedFile) (before after : Bytes) :
    WholeFile.detect (unifiedRows d path file before after) = none := by
  rw [WholeFile.detect, List.findSome?_eq_none_iff]
  intro row mem
  unfold unifiedRows at mem
  dsimp only at mem
  split_ifs at mem with none_
  · cases mem
  · rcases List.mem_append.mp mem with mem | mem
    · simp only [pathRows, List.mem_cons, List.not_mem_nil, or_false] at mem
      rcases mem with rfl | rfl | rfl
      · rfl
      · rw [String.toList_append]
        exact ofRow_dropReturn (by decide) (by decide)
      · rw [String.toList_append]
        exact ofRow_dropReturn (by decide) (by decide)
    · obtain ⟨part, held, mem⟩ := List.mem_flatMap.mp mem
      obtain ⟨frame, -, rfl⟩ := List.mem_map.mp held
      rcases List.mem_cons.mp mem with rfl | mem
      · rfl
      · rcases mem_bodyRows mem with rfl | ⟨_, _, _, rfl⟩ | ⟨_, _, rfl⟩ | ⟨_, _, _, _, rfl, -⟩
        · decide
        · rfl
        · rfl
        · rfl

/-- A change at the start of one version is at the start of the other. -/
theorem starts_together {xs ys : Lines} {gap i j : Nat} {changes : List Change} {change : Change}
    (script : ScriptFrom xs ys gap i j changes) (same : i = 0 → j = 0) (mem : change ∈ changes)
    (start : change.before.start = 0) : change.after.start = 0 := by
  cases changes with
  | nil => cases mem
  | cons first rest =>
    have fit := script.1
    have shift := fit.same_gap
    have before := fit.before_start
    rcases List.mem_cons.mp mem with rfl | mem
    · have := same (by omega)
      omega
    · have later := script.2.bounds mem
      have := fit.before_le
      omega

/-- A change at the end of one version is at the end of the other. -/
theorem ends_together {xs ys : Lines} {gap i j : Nat} {changes : List Change} {change : Change}
    (script : ScriptFrom xs ys gap i j changes) (mem : change ∈ changes)
    (stop : xs.length ≤ change.before.stop) : ys.length ≤ change.after.stop := by
  obtain ⟨ahead, behind, rfl⟩ := List.append_of_mem mem
  have rest := script.rest
  cases behind with
  | nil =>
    have lengths := congrArg List.length rest
    rw [List.length_drop, List.length_drop] at lengths
    omega
  | cons next behind =>
    have start := rest.1.before_start
    have bound := rest.1.before_stop
    have le := rest.1.before_le
    omega

theorem mem_ownParts {before after : Bytes} {part : Section} (mem : part ∈ ownParts d before after) :
    ∃ frame ∈ frames (Lines.new before) (d.changes before after),
      part = frameSection (Lines.new before) (Lines.new after) frame := by
  unfold ownParts at mem
  split_ifs at mem
  · cases mem
  · obtain ⟨frame, held, rfl⟩ := List.mem_map.mp mem
    exact ⟨frame, held, rfl⟩

theorem changes_frames {xs ys : Lines} {gap i j : Nat} {frames : List Frame}
    (framed : Framed xs ys gap i j frames) :
    ∀ frame ∈ frames, (frameSection xs ys frame).rows.any isChanged = true := by
  induction frames generalizing gap i j with
  | nil => exact fun _ none_ => nomatch none_
  | cons frame frames ih =>
    obtain ⟨-, -, some_, body, framed⟩ := framed
    refine List.forall_mem_cons.mpr ⟨?_, ih framed⟩
    rw [frameSection]
    cases edits : frame.edits with
    | nil => exact absurd edits some_
    | cons first rest => exact changes_bodyRows (edits ▸ body)

theorem fileDiff_own (valid : d.Valid) (path : String) (file : ChangedFile) (before after : Bytes) :
    FileDiff (Lines.new before) (Lines.new after) (unifiedRows d path file before after)
      (ownParts d before after) := by
  have script := valid before after
  have detected := detect_own (d := d) path file before after
  refine ⟨?_, ?_, ?_, fun added => (nomatch detected.symm.trans added),
    fun deleted => (nomatch detected.symm.trans deleted)⟩
  · unfold unifiedRows ownParts
    dsimp only
    split_ifs with none_
    · have same := valid.eq_of_nil none_
      subst same
      exact ⟨[], rfl, fun _ mem => (List.not_mem_nil mem).elim,
        kept_to_end rfl (Nat.zero_le _) (Nat.zero_le _)⟩
    · exact ⟨pathRows path file, rfl, by simp [pathRows, DiffRow.isSaid],
        shows_frames (framed_frames script)⟩
  · intro part held
    obtain ⟨frame, mem, rfl⟩ := mem_ownParts held
    exact changes_frames (framed_frames script) frame mem
  · intro part held empty
    obtain ⟨frame, mem, rfl⟩ := mem_ownParts held
    obtain ⟨-, first, isFirst, last, isLast, around, order⟩ := mem_frames script mem
    have low := script.bounds isFirst
    have high := script.bounds isLast
    have begins := starts_together script (fun _ => rfl) isFirst
    have ends := ends_together script isLast
    have size : (frameOf context (Lines.new before).length first last).after.size = 0 :=
      around ▸ empty
    unfold frameOf context Extent.size at size
    dsimp only at size
    refine List.eq_nil_of_length_eq_zero ?_
    omega

/-- No line that the diff adds lies in a reviewed hunk. -/
theorem apart_own (valid : d.Valid) (review : HunkReview) (path : String) (file : ChangedFile)
    (age : MarkAge) :
    let rows := unifiedRows d path file review.reviewed review.current
    ∀ hunk ∈ (review.hunks d rows age).reviewed, ∀ row ∈ rows, ¬AddedIn hunk.span.new row := by
  intro rows hunk held row mem added
  have script := valid review.reviewed review.current
  obtain ⟨whole, -, -, -, placed, -⟩ := review.shows_of_mem valid held
  cases row with
  | add line text =>
    have inside : ∃ change ∈ d.changes review.reviewed review.current,
        change.after.start < line ∧ line ≤ change.after.stop := by
      simp only [rows, unifiedRows] at mem
      split_ifs at mem
      · cases mem
      · rcases List.mem_append.mp mem with mem | mem
        · simp [pathRows] at mem
        · obtain ⟨part, held, mem⟩ := List.mem_flatMap.mp mem
          obtain ⟨frame, framed, rfl⟩ := List.mem_map.mp held
          rcases List.mem_cons.mp mem with same | mem
          · cases same
          · rcases mem_bodyRows mem with same | ⟨_, _, _, same⟩ | ⟨_, _, same⟩ |
              ⟨change, edits, _, _, same, low, high⟩ <;> cases same
            exact ⟨change, (mem_frames script framed).1 change edits, low, high⟩
    obtain ⟨change, changed, low, high⟩ := inside
    rw [AddedIn] at added
    rcases placed.side script changed with side | side <;> omega
  | _ => exact added

end ProgressiveReviewer.Presentation
