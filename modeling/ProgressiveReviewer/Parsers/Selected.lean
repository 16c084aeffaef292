import ProgressiveReviewer.Parsers.Parsed

/-! The selected rows of a hunk (`review-repository/src/excerpt.rs`): they are numbered from where
the excerpt's header says. -/

namespace ProgressiveReviewer.Parsers

open Library Library.Extent Hunks Marks

/-- The selected ones of the rows from an index on. -/
def picked (selection : Selection) : Nat → List DiffRow → List DiffRow
  | _, [] => []
  | index, row :: rows =>
    if selection.contains index then row :: picked selection (index + 1) rows
    else picked selection (index + 1) rows

section Picked

variable {selection : Selection} {index : Nat} {rows : List DiffRow}

theorem contains_iff : selection.contains index = true ↔
    selection.first ≤ index ∧ index ≤ selection.last := by
  simp [Selection.contains]

theorem picked_after (after : selection.last < index) : picked selection index rows = [] := by
  induction rows generalizing index with
  | nil => rfl
  | cons row rows ih =>
    rw [picked, if_neg, ih (by omega)]
    rw [contains_iff]
    omega

theorem picked_append (front rest : List DiffRow) : picked selection index (front ++ rest) =
    picked selection index front ++ picked selection (index + front.length) rest := by
  induction front generalizing index with
  | nil => rfl
  | cons row front ih =>
    rw [List.cons_append, picked, picked, List.length_cons, ih,
      show index + 1 + front.length = index + (front.length + 1) by omega]
    split_ifs <;> rfl

theorem picked_sublist (selection : Selection) (index : Nat) (rows : List DiffRow) :
    (picked selection index rows).Sublist rows := by
  induction rows generalizing index with
  | nil => exact .slnil
  | cons row rows ih =>
    rw [picked]
    split_ifs
    · exact (ih (index + 1)).cons_cons row
    · exact (ih (index + 1)).cons row

/-- The selected rows stand together. -/
theorem picked_eq_cut (selection : Selection) (index : Nat) (rows : List DiffRow) :
    picked selection index rows =
      cut rows ⟨selection.first - index, selection.last + 1 - index⟩ := by
  induction rows generalizing index with
  | nil => simp [picked, cut]
  | cons row rows ih =>
    rw [picked, ih]
    by_cases before : index < selection.first
    · rw [if_neg (by rw [contains_iff]; omega), cut, cut,
        show selection.first - index = selection.first - (index + 1) + 1 by omega, List.drop_succ_cons]
      exact congrArg (List.take · _) (by dsimp only; omega)
    · rw [show selection.first - index = 0 by omega, show selection.first - (index + 1) = 0 by omega]
      by_cases after : index ≤ selection.last
      · rw [if_pos (by rw [contains_iff]; omega), cut, cut,
          show selection.last + 1 - index - 0 = selection.last + 1 - (index + 1) - 0 + 1 by omega]
        rfl
      · rw [if_neg (by rw [contains_iff]; omega), cut, cut,
          show selection.last + 1 - index = 0 by omega,
          show selection.last + 1 - (index + 1) = 0 by omega]
        rfl

/-- From the first selected row on, the selected rows are numbered as all are. -/
theorem numbered_picked {a b : Nat} (inside : selection.first ≤ index) (numbered : Numbered a b rows) :
    Numbered a b (picked selection index rows) := by
  induction rows generalizing index a b with
  | nil => trivial
  | cons row rows ih =>
    by_cases after : index ≤ selection.last
    · rw [picked, if_pos (contains_iff.mpr ⟨inside, after⟩)]
      cases row with
      | context | delete | add => exact ⟨numbered.1, ih (by omega) numbered.2⟩
      | _ => exact @ih (index + 1) a b (by omega) numbered
    · rw [picked_after (by omega)]
      trivial

end Picked

/-! ## Numbers -/

/-- Rows of one side only are numbered alike whatever the other side's number is. -/
theorem Numbered.of_old {rows : List DiffRow} {a b : Nat} (none_ : rows.countP isOld = 0)
    (numbered : Numbered a b rows) (a' : Nat) : Numbered a' b rows := by
  induction rows generalizing b with
  | nil => trivial
  | cons row rows ih =>
    cases row with
    | context | delete => exact absurd none_ (by rw [List.countP_cons_of_pos rfl]; omega)
    | add => exact ⟨numbered.1, ih (by simpa [isOld] using none_) numbered.2⟩
    | _ => exact ih (by simpa [isOld] using none_) numbered

theorem Numbered.of_new {rows : List DiffRow} {a b : Nat} (none_ : rows.countP isNew = 0)
    (numbered : Numbered a b rows) (b' : Nat) : Numbered a b' rows := by
  induction rows generalizing a with
  | nil => trivial
  | cons row rows ih =>
    cases row with
    | context | add => exact absurd none_ (by rw [List.countP_cons_of_pos rfl]; omega)
    | delete => exact ⟨numbered.1, ih (by simpa [isNew] using none_) numbered.2⟩
    | _ => exact ih (by simpa [isNew] using none_) numbered

theorem Numbered.tail {row : DiffRow} {rows : List DiffRow} {a b : Nat}
    (numbered : Numbered a b (row :: rows)) :
    Numbered (a + if isOld row then 1 else 0) (b + if isNew row then 1 else 0) rows := by
  cases row with
  | context | delete | add => exact numbered.2
  | _ => exact numbered

theorem Numbered.head {row : DiffRow} {rows : List DiffRow} {a b : Nat}
    (numbered : Numbered a b (row :: rows)) : Numbered a b [row] := by
  cases row with
  | context | delete | add => exact ⟨numbered.1, trivial⟩
  | _ => trivial

/-- Numbers of a row, as 32 bits hold them. -/
def Fits : DiffRow → Prop
  | .hunk oldStart oldCount newStart newCount =>
    oldStart < 2 ^ 32 ∧ oldCount < 2 ^ 32 ∧ newStart < 2 ^ 32 ∧ newCount < 2 ^ 32
  | .context oldLine newLine _ => oldLine < 2 ^ 32 ∧ newLine < 2 ^ 32
  | .delete oldLine _ => oldLine < 2 ^ 32
  | .add newLine _ => newLine < 2 ^ 32
  | _ => True

instance : DecidablePred Fits := fun row => by
  cases row <;> unfold Fits <;> infer_instance

/-- Every number that is counted up to is one of a row. -/
theorem Numbered.old_fits {rows : List DiffRow} {a b n : Nat} (numbered : Numbered a b rows)
    (fits : ∀ row ∈ rows, Fits row) (small : n < rows.countP isOld) : a + n < 2 ^ 32 := by
  induction rows generalizing a b n with
  | nil => exact absurd small (Nat.not_lt_zero n)
  | cons row rows ih =>
    obtain ⟨own, rest⟩ := List.forall_mem_cons.mp fits
    cases row with
    | context | delete =>
      obtain ⟨⟨isNumber, -⟩, numbered⟩ := numbered
      rw [List.countP_cons_of_pos rfl] at small
      cases n with
      | zero =>
        simp only [Fits] at own
        omega
      | succ n => exact Nat.add_right_comm _ 1 n ▸ ih numbered rest (by omega)
    | add => exact ih numbered.2 rest (by simpa [isOld] using small)
    | _ => exact ih (b := b) numbered rest (by simpa [isOld] using small)

theorem Numbered.new_fits {rows : List DiffRow} {a b n : Nat} (numbered : Numbered a b rows)
    (fits : ∀ row ∈ rows, Fits row) (small : n < rows.countP isNew) : b + n < 2 ^ 32 := by
  induction rows generalizing a b n with
  | nil => exact absurd small (Nat.not_lt_zero n)
  | cons row rows ih =>
    obtain ⟨own, rest⟩ := List.forall_mem_cons.mp fits
    cases row with
    | context =>
      obtain ⟨⟨-, isNumber, -⟩, numbered⟩ := numbered
      rw [List.countP_cons_of_pos rfl] at small
      cases n with
      | zero =>
        simp only [Fits] at own
        omega
      | succ n => exact Nat.add_right_comm _ 1 n ▸ ih numbered rest (by omega)
    | add =>
      obtain ⟨⟨isNumber, -⟩, numbered⟩ := numbered
      rw [List.countP_cons_of_pos rfl] at small
      cases n with
      | zero =>
        simp only [Fits] at own
        omega
      | succ n => exact Nat.add_right_comm _ 1 n ▸ ih numbered rest (by omega)
    | delete => exact ih numbered.2 rest (by simpa [isNew] using small)
    | _ => exact ih (a := a) numbered rest (by simpa [isNew] using small)

/-! ## The selected rows of a hunk -/

namespace ExcerptHunk

variable {selection : Selection} {rowOffset offset A B a b : Nat} {rows : List DiffRow}

/-- The rows of lines that are selected, with the next line on both sides. -/
def included (selection : Selection) (rowOffset offset A B : Nat) (rows : List DiffRow) : List HunkRow :=
  (content selection rowOffset offset A B rows).filter (·.selected)

/-- How far a row takes the lines of a side. -/
def step (side : DiffRow → Bool) (row : DiffRow) : Nat := if side row then 1 else 0

theorem included_cons (row : DiffRow) : included selection rowOffset offset A B (row :: rows) =
    (if row.isContent = true ∧ selection.contains (rowOffset + offset) = true then
      [⟨row, offset, A, B, true⟩] else []) ++
      included selection rowOffset (offset + 1) (A + step isOld row) (B + step isNew row) rows := by
  unfold included
  by_cases inside : selection.contains (rowOffset + offset) = true
  · cases row <;> simp [content, inside, DiffRow.isContent, step, isOld, isNew]
  · cases row <;> simp [content, inside, DiffRow.isContent, step, isOld, isNew]

theorem included_rows : (included selection rowOffset offset A B rows).map (·.row) =
    (picked selection (rowOffset + offset) rows).filter DiffRow.isContent := by
  induction rows generalizing offset A B with
  | nil => rfl
  | cons row rows ih =>
    rw [included_cons, picked, List.map_append, ih, Nat.add_assoc]
    by_cases inside : selection.contains (rowOffset + offset) = true
    · rw [if_pos inside, List.filter_cons]
      by_cases own : row.isContent = true
      · rw [if_pos ⟨own, inside⟩, if_pos own]
        rfl
      · rw [if_neg fun both => own both.1, if_neg own]
        rfl
    · rw [if_neg inside, if_neg fun both => inside both.2]
      rfl

/-- The first of them has the numbers of the lines that come next. -/
theorem included_head {first : HunkRow} (numbered : Numbered a b rows)
    (head : (included selection rowOffset offset A B rows).head? = some first) :
    ∃ m n, first.oldLine = A + m ∧ first.newLine = B + n ∧
      m + (picked selection (rowOffset + offset) rows).countP isOld ≤ rows.countP isOld ∧
      n + (picked selection (rowOffset + offset) rows).countP isNew ≤ rows.countP isNew ∧
      Numbered (a + m) (b + n) (picked selection (rowOffset + offset) rows) := by
  induction rows generalizing offset A B a b with
  | nil => cases head
  | cons row rows ih =>
    rw [included_cons] at head
    by_cases here : row.isContent = true ∧ selection.contains (rowOffset + offset) = true
    · rw [if_pos here] at head
      obtain rfl : (⟨row, offset, A, B, true⟩ : HunkRow) = first := Option.some.inj head
      have sub := picked_sublist selection (rowOffset + offset) (row :: rows)
      refine ⟨0, 0, rfl, rfl, ?_, ?_, numbered_picked (contains_iff.mp here.2).1 numbered⟩
      · rw [Nat.zero_add]
        exact sub.countP_le
      · rw [Nat.zero_add]
        exact sub.countP_le
    · rw [if_neg here, List.nil_append] at head
      obtain ⟨m, n, isOldLine, isNewLine, old, new, after⟩ := ih numbered.tail head
      refine ⟨step isOld row + m, step isNew row + n, by omega, by omega, ?_⟩
      rw [picked, List.countP_cons, List.countP_cons, ← Nat.add_assoc a, ← Nat.add_assoc b]
      rw [← Nat.add_assoc] at old new after
      by_cases inside : selection.contains (rowOffset + offset) = true
      · -- A row without a line is selected, and counts for nothing.
        have other : row.isContent = false :=
          Bool.eq_false_iff.mpr fun own => here ⟨own, inside⟩
        have plain : isOld row = false ∧ isNew row = false := by
          cases row <;> first | exact Bool.noConfusion other | exact ⟨rfl, rfl⟩
        simp only [step, plain.1, plain.2, Bool.false_eq_true, if_false, Nat.add_zero] at after ⊢
        rw [if_pos inside, List.countP_cons_of_neg (by simp [plain.1]),
          List.countP_cons_of_neg (by simp [plain.2])]
        refine ⟨by omega, by omega, ?_⟩
        cases row <;> first | exact Bool.noConfusion other | exact after
      · rw [if_neg inside]
        simp only [step]
        exact ⟨by omega, by omega, after⟩

/-- Lines of rows, with a marker after some. -/
def Written : List DiffRow → List String → Prop
  | [], lines => lines = []
  | row :: rows, lines => ∃ rest, (lines = contentText row :: rest ∨
      lines = contentText row :: noNewlineText :: rest) ∧ Written rows rest

theorem written_rowLines (rows : List DiffRow) (included : List HunkRow) :
    Written (included.map (·.row)) (included.flatMap (rowLines rows)) := by
  induction included with
  | nil => rfl
  | cons row included ih =>
    rw [List.flatMap_cons, rowLines]
    refine ⟨included.flatMap (rowLines rows), ?_, ih⟩
    split_ifs
    · exact .inr rfl
    · exact .inl rfl

theorem sum_counts (included : List HunkRow) :
    (included.map (·.oldCount)).sum = (included.map (·.row)).countP isOld ∧
      (included.map (·.newCount)).sum = (included.map (·.row)).countP isNew := by
  induction included with
  | nil => exact ⟨rfl, rfl⟩
  | cons row included ih =>
    obtain ⟨old, new⟩ := ih
    rw [List.map_cons, List.map_cons, List.map_cons, List.sum_cons, List.sum_cons, List.countP_cons,
      List.countP_cons, old, new]
    exact ⟨Nat.add_comm _ _, Nat.add_comm _ _⟩

theorem countP_content (rows : List DiffRow) :
    (rows.filter DiffRow.isContent).countP isOld = rows.countP isOld ∧
      (rows.filter DiffRow.isContent).countP isNew = rows.countP isNew := by
  rw [List.countP_filter, List.countP_filter]
  constructor <;> refine List.countP_congr fun row _ => ?_ <;>
    cases row <;> simp [isOld, isNew, DiffRow.isContent]

theorem numbered_content {rows : List DiffRow} {a b : Nat} (numbered : Numbered a b rows) :
    Numbered a b (rows.filter DiffRow.isContent) := by
  induction rows generalizing a b with
  | nil => trivial
  | cons row rows ih =>
    cases row with
    | context | delete | add => exact ⟨numbered.1, ih numbered.2⟩
    | _ => exact ih numbered

/-- What is read of a hunk: the selected lines, numbered and counted by its header. -/
def Reads (hunk : ExcerptHunk) (rows : List DiffRow) : Prop :=
  rows ≠ [] ∧ hunk.oldCount = rows.countP isOld ∧ hunk.newCount = rows.countP isNew ∧
    Numbered hunk.oldStart hunk.newStart rows ∧
    Fits (.hunk hunk.oldStart hunk.oldCount hunk.newStart hunk.newCount) ∧ Written rows hunk.lines

theorem read_spec {oldStart oldCount newStart newCount : Nat}
    (own : Fits (.hunk oldStart oldCount newStart newCount)) (fits : ∀ row ∈ rows, Fits row)
    (numbered : Numbered oldStart newStart rows) (old : rows.countP isOld = oldCount)
    (new : rows.countP isNew = newCount) :
    match ExcerptHunk.read rows rowOffset selection (oldStart, oldCount) (newStart, newCount) with
    | none => (picked selection rowOffset rows).filter DiffRow.isContent = []
    | some hunk => hunk.Reads ((picked selection rowOffset rows).filter DiffRow.isContent) := by
  set oldLine := oldStart + if oldCount = 0 then 1 else 0 with isOldLine
  set newLine := newStart + if newCount = 0 then 1 else 0 with isNewLine
  have same := @included_rows selection rowOffset 0 oldLine newLine rows
  rw [Nat.add_zero] at same
  have found : ExcerptHunk.read rows rowOffset selection (oldStart, oldCount) (newStart, newCount) =
      (included selection rowOffset 0 oldLine newLine rows).head?.map fun first =>
        let included := included selection rowOffset 0 oldLine newLine rows
        let oldCount := (included.map (·.oldCount)).sum
        let newCount := (included.map (·.newCount)).sum
        ⟨first.oldLine - if oldCount = 0 then 1 else 0, oldCount,
          first.newLine - if newCount = 0 then 1 else 0, newCount, included.flatMap (rowLines rows)⟩ := rfl
  rw [found]
  cases head : (included selection rowOffset 0 oldLine newLine rows).head? with
  | none =>
    rw [← same, List.head?_eq_none_iff.mp head]
    rfl
  | some first =>
    obtain ⟨m, n, firstOld, firstNew, few, few', after⟩ := included_head numbered head
    rw [Nat.add_zero] at few few' after
    obtain ⟨sumOld, sumNew⟩ := sum_counts (included selection rowOffset 0 oldLine newLine rows)
    obtain ⟨countOld, countNew⟩ := countP_content (picked selection rowOffset rows)
    have written := written_rowLines rows (included selection rowOffset 0 oldLine newLine rows)
    rw [same] at sumOld sumNew written
    have after := numbered_content after
    set rows' := (picked selection rowOffset rows).filter DiffRow.isContent with isRows
    dsimp only [Option.map_some]
    rw [sumOld, sumNew]
    have some_ : rows' ≠ [] := by
      intro nothing
      rw [nothing, List.map_eq_nil_iff] at same
      rw [same] at head
      cases head
    have oldBound := fun k => numbered.old_fits (n := k) fits
    have newBound := fun k => numbered.new_fits (n := k) fits
    obtain ⟨smallStart, small, smallStart', small'⟩ := own
    refine ⟨some_, rfl, rfl, ?_, ⟨?_, ?_, ?_, ?_⟩, written⟩
    · -- A side without selected lines may be numbered anyhow; the others start at its next line.
      have byOld : Numbered (first.oldLine - if rows'.countP isOld = 0 then 1 else 0) (newStart + n)
          rows' := by
        split_ifs with none_
        · exact after.of_old none_ _
        · rwa [firstOld, isOldLine, if_neg (by omega), Nat.add_zero, Nat.sub_zero]
      split_ifs at byOld ⊢ with none_ none_' none_'
      all_goals first
        | exact byOld.of_new ‹_› _
        | rwa [firstNew, isNewLine, if_neg (by omega), Nat.add_zero, Nat.sub_zero]
    · have last := oldBound (m - 1)
      have here := oldBound m
      show first.oldLine - (if rows'.countP isOld = 0 then 1 else 0) < 2 ^ 32
      split_ifs at isOldLine ⊢ <;> omega
    · show rows'.countP isOld < 2 ^ 32
      omega
    · have last := newBound (n - 1)
      have here := newBound n
      show first.newLine - (if rows'.countP isNew = 0 then 1 else 0) < 2 ^ 32
      split_ifs at isNewLine ⊢ <;> omega
    · show rows'.countP isNew < 2 ^ 32
      omega

end ExcerptHunk

end ProgressiveReviewer.Parsers
