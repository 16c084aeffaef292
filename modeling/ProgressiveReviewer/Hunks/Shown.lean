import ProgressiveReviewer.Hunks.RowText

/-! Rows that show a diff between two versions, and the hunks they hold. -/

namespace ProgressiveReviewer.Hunks

open Library Library.Extent

/-- Rows of lines from one pair of positions to another: the lines kept, removed and added there,
with their numbers and texts. -/
def ShowsLines (xs ys : Lines) (i' j' : Nat) : Nat → Nat → List DiffRow → Prop
  | i, j, [] => i = i' ∧ j = j'
  | i, j, .context oldLine newLine text :: rows =>
    (oldLine = i + 1 ∧ newLine = j + 1 ∧
      ∃ line, xs[i]? = some line ∧ ys[j]? = some line ∧ text = rowText ' ' (some line)) ∧
      ShowsLines xs ys i' j' (i + 1) (j + 1) rows
  | i, j, .delete oldLine text :: rows =>
    (oldLine = i + 1 ∧ ∃ line, xs[i]? = some line ∧ text = rowText '-' (some line)) ∧
      ShowsLines xs ys i' j' (i + 1) j rows
  | i, j, .add newLine text :: rows =>
    (newLine = j + 1 ∧ ∃ line, ys[j]? = some line ∧ text = rowText '+' (some line)) ∧
      ShowsLines xs ys i' j' i (j + 1) rows
  | i, j, .metadata _ :: rows => ShowsLines xs ys i' j' i j rows
  | _, _, _ => False

/-- A hunk: the lines its header names and the rows under it. -/
structure Section where
  around : Change
  rows : List DiffRow

namespace Section

def header (part : Section) : DiffRow :=
  .hunk (headerStart part.around.before.start part.around.before.size) part.around.before.size
    (headerStart part.around.after.start part.around.after.size) part.around.after.size

def all (part : Section) : List DiffRow := part.header :: part.rows

def hunk (part : Section) : Option OpenHunk :=
  ((HunkWalk.start part.header).map fun walk => part.rows.foldl HunkWalk.push walk).bind
    HunkWalk.finish

end Section

/-- Hunks in order, with unchanged lines around each; at least `gap` of them come before the first. -/
def ShowsSections (xs ys : Lines) : Nat → Nat → Nat → List Section → Prop
  | _, i, j, [] => Kept xs ys i j xs.length ys.length
  | gap, i, j, part :: parts =>
    i + gap ≤ part.around.before.start ∧
      Kept xs ys i j part.around.before.start part.around.after.start ∧
      ShowsLines xs ys part.around.before.stop part.around.after.stop part.around.before.start
        part.around.after.start part.rows ∧
      ShowsSections xs ys 1 part.around.before.stop part.around.after.stop parts

/-- A row that only says something about the file. -/
def DiffRow.isSaid : DiffRow → Bool
  | .fileHeader _ _ _ | .metadata _ => true
  | _ => false

/-- Rows of a diff from one version to another. -/
def ShowsDiff (xs ys : Lines) (rows : List DiffRow) : Prop :=
  ∃ said parts, rows = said ++ parts.flatMap Section.all ∧ (∀ row ∈ said, row.isSaid = true) ∧
    ShowsSections xs ys 0 0 0 parts

variable {xs ys : Lines} {i j i' j' : Nat} {rows : List DiffRow}

/-- Lines shown are no headers and no notices. -/
theorem ShowsLines.plain (shown : ShowsLines xs ys i' j' i j rows) :
    ∀ row ∈ rows, HunkWalk.start row = none ∧ row.isNotice = false := by
  induction rows generalizing i j with
  | nil => exact fun _ mem => by cases mem
  | cons row rows ih =>
    rw [List.forall_mem_cons]
    cases row <;> first | exact shown.elim | skip
    · exact ⟨⟨rfl, rfl⟩, ih shown⟩
    all_goals exact ⟨⟨rfl, rfl⟩, ih shown.2⟩

theorem ShowsLines.append {i'' j'' : Nat} {rest : List DiffRow}
    (shown : ShowsLines xs ys i' j' i j rows) (then_ : ShowsLines xs ys i'' j'' i' j' rest) :
    ShowsLines xs ys i'' j'' i j (rows ++ rest) := by
  induction rows generalizing i j with
  | nil =>
    obtain ⟨rfl, rfl⟩ := shown
    exact then_
  | cons row rows ih =>
    cases row <;> first | exact shown.elim | skip
    · exact ih shown
    all_goals exact ⟨shown.1, ih shown.2⟩

/-- What is said about a line changes no position. -/
theorem ShowsLines.said {texts : List String} (shown : ShowsLines xs ys i' j' i j rows) :
    ShowsLines xs ys i' j' i j (texts.map .metadata ++ rows) := by
  induction texts with
  | nil => exact shown
  | cons text texts ih => exact ih

theorem openHunksFrom_rows {walk : Option HunkWalk} {rest : List DiffRow}
    (plain : ∀ row ∈ rows, HunkWalk.start row = none) : openHunksFrom walk (rows ++ rest) =
      openHunksFrom (walk.map fun walk => rows.foldl HunkWalk.push walk) rest := by
  induction rows generalizing walk with
  | nil => cases walk <;> rfl
  | cons row rows ih =>
    obtain ⟨own, plain⟩ := List.forall_mem_cons.mp plain
    rw [List.cons_append, openHunksFrom, own]
    dsimp only
    rw [ih plain, Option.map_map]
    rfl

theorem openHunksFrom_sections {walk : Option HunkWalk} {parts : List Section}
    (plain : ∀ part ∈ parts, ∀ row ∈ part.rows, HunkWalk.start row = none) :
    openHunksFrom walk (parts.flatMap Section.all) =
      (walk.bind HunkWalk.finish).toList ++ parts.filterMap Section.hunk := by
  induction parts generalizing walk with
  | nil => exact (List.append_nil _).symm
  | cons part parts ih =>
    obtain ⟨own, plain⟩ := List.forall_mem_cons.mp plain
    have started : ∃ first, HunkWalk.start part.header = some first := ⟨_, rfl⟩
    obtain ⟨first, started⟩ := started
    have walked : part.hunk = HunkWalk.finish (part.rows.foldl HunkWalk.push first) := by
      rw [Section.hunk, started]
      rfl
    rw [List.flatMap_cons, Section.all, List.cons_append, openHunksFrom, started]
    dsimp only
    rw [openHunksFrom_rows own, ih plain, List.filterMap_cons, walked, Option.map_some,
      Option.bind_some]
    cases HunkWalk.finish (part.rows.foldl HunkWalk.push first) <;> rfl

/-! ## The span of a hunk -/

theorem getElem?_bound {lines : Lines} {n : Nat} {line : Bytes} (found : lines[n]? = some line) :
    n < lines.length := (List.getElem?_eq_some_iff.mp found).1

/-- A walk that came from `(a, b)` to `(i, j)`: everything outside what it saw change is kept. -/
def HunkWalk.Came (xs ys : Lines) (a b i j : Nat) (walk : HunkWalk) : Prop :=
  walk.at = ⟨i, j⟩ ∧ i ≤ xs.length ∧ j ≤ ys.length ∧
    match walk.first, walk.last with
    | none, none => Kept xs ys a b i j
    | some first, some last => Kept xs ys a b first.old first.new ∧ first.old ≤ last.old ∧
        first.new ≤ last.new ∧ (first.old < last.old ∨ first.new < last.new) ∧
        Kept xs ys last.old last.new i j
    | _, _ => False

namespace HunkWalk

variable {a b : Nat} {walk : HunkWalk}

theorem Came.kept (came : walk.Came xs ys a b i j) {line : Bytes} (old : xs[i]? = some line)
    (new : ys[j]? = some line) : (walk.step 1 1).Came xs ys a b (i + 1) (j + 1) := by
  obtain ⟨here, -, -, came⟩ := came
  have bound := getElem?_bound old
  have bound' := getElem?_bound new
  have one : Kept xs ys i j (i + 1) (j + 1) :=
    .of_getElem? (Nat.le_succ i) (by omega) bound bound' fun n small => by
      obtain rfl : n = 0 := by omega
      exact old.trans new.symm
  refine ⟨by simp [step, here], bound, bound', ?_⟩
  have stays : (walk.step 1 1).first = walk.first ∧ (walk.step 1 1).last = walk.last := ⟨rfl, rfl⟩
  rw [stays.1, stays.2]
  split at came
  · exact came.trans one
  · obtain ⟨before, le, le', some, after⟩ := came
    exact ⟨before, le, le', some, after.trans one⟩
  · exact came

/-- A changed line ends what the walk saw change. -/
theorem Came.changed (came : walk.Came xs ys a b i j) (old new : Nat) (one : old + new = 1)
    (bound : i + old ≤ xs.length) (bound' : j + new ≤ ys.length) :
    (walk.step old new).Came xs ys a b (i + old) (j + new) := by
  obtain ⟨here, -, -, came⟩ := came
  have after : Kept xs ys (i + old) (j + new) (i + old) (j + new) := .refl bound bound'
  simp only [Came, step, if_pos one, here]
  refine ⟨trivial, bound, bound', ?_⟩
  split at came
  · next noFirst _ =>
    rw [noFirst]
    have moved : i < i + old ∨ j < j + new := by omega
    exact ⟨came, Nat.le_add_right _ _, Nat.le_add_right _ _, moved, after⟩
  · next first last isFirst isLast =>
    obtain ⟨before, le, le', some, kept⟩ := came
    have := kept.le
    have := kept.le'
    rw [isFirst]
    exact ⟨before, by dsimp only [Option.getD_some]; omega, by dsimp only [Option.getD_some]; omega,
      by dsimp only [Option.getD_some]; omega, after⟩
  · exact came.elim

theorem Came.lines (shown : ShowsLines xs ys i' j' i j rows) (came : walk.Came xs ys a b i j) :
    (rows.foldl HunkWalk.push walk).Came xs ys a b i' j' := by
  induction rows generalizing i j walk with
  | nil =>
    obtain ⟨rfl, rfl⟩ := shown
    exact came
  | cons row rows ih =>
    cases row <;> first | exact shown.elim | skip
    · exact ih shown came
    · obtain ⟨⟨-, -, line, old, new, -⟩, shown⟩ := shown
      exact ih shown (came.kept old new)
    · obtain ⟨⟨-, line, old, -⟩, shown⟩ := shown
      exact ih shown (came.changed 1 0 rfl (getElem?_bound old) came.2.2.1)
    · obtain ⟨⟨-, line, new, -⟩, shown⟩ := shown
      exact ih shown (came.changed 0 1 rfl came.2.1 (getElem?_bound new))

end HunkWalk

/-- A span as an edit from the old lines to the new ones. -/
def HunkSpan.edit (span : HunkSpan) : Change := ⟨span.old, span.new⟩

/-- The walk through a section starts at the first lines its header names. -/
theorem Section.start_header (part : Section) : HunkWalk.start part.header =
    some ⟨⟨part.around.before.start, part.around.after.start⟩, none, none, 0⟩ := by
  have line : ∀ start count : Nat,
      (if count = 0 then headerStart start count else headerStart start count - 1) = start := by
    intro start count
    unfold headerStart
    split_ifs <;> omega
  simp only [Section.header, HunkWalk.start, line]

/-- The hunk of a section: the lines around its span are kept. -/
theorem Section.hunk_spec {part : Section}
    (shown : ShowsLines xs ys part.around.before.stop part.around.after.stop
      part.around.before.start part.around.after.start part.rows)
    (bound : part.around.before.start ≤ xs.length) (bound' : part.around.after.start ≤ ys.length) :
    match part.hunk with
    | none => Kept xs ys part.around.before.start part.around.after.start part.around.before.stop
        part.around.after.stop
    | some hunk => Kept xs ys part.around.before.start part.around.after.start hunk.span.old.start
          hunk.span.new.start ∧ hunk.span.old.start ≤ hunk.span.old.stop ∧
        hunk.span.new.start ≤ hunk.span.new.stop ∧
        (hunk.span.old.start < hunk.span.old.stop ∨ hunk.span.new.start < hunk.span.new.stop) ∧
        Kept xs ys hunk.span.old.stop hunk.span.new.stop part.around.before.stop
          part.around.after.stop := by
  set first : HunkWalk := ⟨⟨part.around.before.start, part.around.after.start⟩, none, none, 0⟩
  have started : HunkWalk.start part.header = some first := part.start_header
  have came : first.Came xs ys part.around.before.start part.around.after.start
      part.around.before.start part.around.after.start := ⟨rfl, bound, bound', .refl bound bound'⟩
  have came := came.lines shown
  rw [Section.hunk, started, Option.map_some, Option.bind_some]
  obtain ⟨-, -, -, came⟩ := came
  unfold HunkWalk.finish
  generalize part.rows.foldl HunkWalk.push first = walk at came ⊢
  split at came
  · next noFirst _ =>
    rw [noFirst]
    exact came
  · next isFirst isLast =>
    rw [isFirst, isLast]
    exact came
  · exact came.elim

/-- The spans of the hunks shown are the edits of a script. -/
theorem ShowsSections.script {parts : List Section} {gap gap' p q : Nat}
    (shown : ShowsSections xs ys gap' i j parts) (kept : Kept xs ys p q i j)
    (room : p + gap ≤ i + gap') :
    ScriptFrom xs ys gap p q ((parts.filterMap Section.hunk).map fun hunk => hunk.span.edit) := by
  induction parts generalizing gap gap' i j p q with
  | nil =>
    have whole := kept.trans shown
    have same := whole.same
    rwa [cut_to_end, cut_to_end] at same
  | cons part parts ih =>
    obtain ⟨far, before, lines, shown⟩ := shown
    have spec := part.hunk_spec lines before.bound before.bound'
    rw [List.filterMap_cons]
    split at spec
    · next none =>
      rw [none]
      exact ih shown ((kept.trans before).trans spec) (by have := spec.le; omega)
    · next hunk found =>
      obtain ⟨start, le, le', some, stop⟩ := spec
      rw [found]
      have upto := (kept.trans before).trans start
      have := start.le
      have := stop.le
      have := stop.bound
      have := upto.shift
      have := stop.le'
      have := stop.bound'
      refine ⟨⟨?_, ?_, ?_, upto.same, le, le', ?_, ?_, some⟩, ih shown stop ?_⟩ <;>
        dsimp only [HunkSpan.edit] <;> omega

theorem ShowsSections.plain {parts : List Section} {gap : Nat}
    (shown : ShowsSections xs ys gap i j parts) : ∀ part ∈ parts, ∀ row ∈ part.rows,
      HunkWalk.start row = none ∧ row.isNotice = false := by
  induction parts generalizing gap i j with
  | nil => exact fun _ mem => by cases mem
  | cons part parts ih =>
    rw [List.forall_mem_cons]
    exact ⟨shown.2.2.1.plain, ih shown.2.2.2⟩

theorem DiffRow.isSaid_plain {row : DiffRow} (own : row.isSaid = true) :
    HunkWalk.start row = none ∧ row.isNotice = false := by
  cases row <;> first | exact ⟨rfl, rfl⟩ | cases own

theorem noNotice_sections {said : List DiffRow} {parts : List Section} {gap : Nat}
    (plain : ∀ row ∈ said, row.isSaid = true) (shown : ShowsSections xs ys gap i j parts) :
    ∀ row ∈ said ++ parts.flatMap Section.all, row.isNotice = false := by
  intro row mem
  rcases List.mem_append.mp mem with mem | mem
  · exact (DiffRow.isSaid_plain (plain row mem)).2
  · obtain ⟨part, held, mem⟩ := List.mem_flatMap.mp mem
    rcases List.mem_cons.mp mem with rfl | mem
    · rfl
    · exact (shown.plain part held row mem).2

theorem ShowsDiff.noNotice (shown : ShowsDiff xs ys rows) : ∀ row ∈ rows, row.isNotice = false := by
  obtain ⟨said, parts, rfl, plain, sections⟩ := shown
  exact noNotice_sections plain sections

/-- The hunks of rows that show a diff are those of its sections. -/
theorem openHunks_eq {said : List DiffRow} {parts : List Section} {gap : Nat}
    (plain : ∀ row ∈ said, row.isSaid = true) (shown : ShowsSections xs ys gap i j parts) :
    openHunks (said ++ parts.flatMap Section.all) = parts.filterMap Section.hunk := by
  have clean : (said ++ parts.flatMap Section.all).any DiffRow.isNotice = false :=
    List.any_eq_false.mpr fun row mem => Bool.eq_false_iff.mp (noNotice_sections plain shown row mem)
  rw [openHunks, clean, if_neg Bool.false_ne_true,
    openHunksFrom_rows fun row mem => (DiffRow.isSaid_plain (plain row mem)).1,
    openHunksFrom_sections fun part held row mem => (shown.plain part held row mem).1]
  rfl

/-- The spans of the hunks a diff shows are edits from the one version to the other. -/
theorem ShowsDiff.openHunks (shown : ShowsDiff xs ys rows) :
    Script xs ys ((openHunks rows).map fun hunk => hunk.span.edit) := by
  obtain ⟨said, parts, rfl, plain, sections⟩ := shown
  rw [openHunks_eq plain sections]
  exact sections.script (.refl (Nat.zero_le _) (Nat.zero_le _)) (Nat.le_refl _)

end ProgressiveReviewer.Hunks
