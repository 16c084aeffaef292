import ProgressiveReviewer.Library.Fields
import ProgressiveReviewer.Library.LineText

/-! Occurrences of a literal pattern in a text, each after the end of the one before it. -/

namespace ProgressiveReviewer.Library

/-- A literal pattern, told by how much of a text it takes at its head. -/
structure Literal (α : Type*) where
  heads : List α → Option Nat
  /-- A match takes something, and only what is there. -/
  takes {text : List α} {taken : Nat} : heads text = some taken → 0 < taken ∧ taken ≤ text.length
  /-- A match depends on what it takes only. -/
  alone {text : List α} {taken : Nat} : heads text = some taken →
    ∀ rest, heads (text.take taken ++ rest) = some taken

namespace Literal

variable {α : Type*} (literal : Literal α)

/-- The first match of a text that starts at a place. -/
def findFrom (start : Nat) : List α → Option Extent
  | [] => none
  | item :: rest =>
    match literal.heads (item :: rest) with
    | some taken => some ⟨start, start + taken⟩
    | none => findFrom (start + 1) rest

/-- The first match at an offset or after it. -/
def findAt (text : List α) (offset : Nat) : Option Extent := literal.findFrom offset (text.drop offset)

theorem findFrom_bounds {start : Nat} {text : List α} {found : Extent}
    (finds : literal.findFrom start text = some found) :
    start ≤ found.start ∧ found.start < found.stop ∧ found.stop ≤ start + text.length := by
  induction text generalizing start with
  | nil => cases finds
  | cons item rest ih =>
    rw [findFrom] at finds
    cases own : literal.heads (item :: rest) with
    | some taken =>
      rw [own] at finds
      cases finds
      obtain ⟨pos, le⟩ := literal.takes own
      exact ⟨Nat.le_refl _, Nat.lt_add_of_pos_right pos, Nat.add_le_add_left le _⟩
    | none =>
      rw [own] at finds
      obtain ⟨after, proper, within⟩ := ih finds
      rw [List.length_cons]
      omega

/-- The matches from an offset on, each search starting where the last match ends. -/
def ranges (text : List α) (offset : Nat) : List Extent :=
  match _finds : literal.findAt text offset with
  | none => []
  | some found => found :: ranges text found.stop
termination_by text.length - offset
decreasing_by
  have bounds := literal.findFrom_bounds _finds
  rw [List.length_drop] at bounds
  omega

/-- The matches of a text that starts at a place, by what heads its ends. -/
def occurrences (start : Nat) (text : List α) : List Extent :=
  match text with
  | [] => []
  | item :: rest =>
    match _own : literal.heads (item :: rest) with
    | some taken => ⟨start, start + taken⟩ :: occurrences (start + taken) ((item :: rest).drop taken)
    | none => occurrences (start + 1) rest
termination_by text.length
decreasing_by
  · have pos := (literal.takes _own).1
    rw [List.length_drop, List.length_cons]
    omega
  · exact Nat.lt_succ_self _

theorem occurrences_nil (start : Nat) : literal.occurrences start [] = [] := by
  rw [occurrences]

theorem occurrences_some {start taken : Nat} {text : List α} (own : literal.heads text = some taken) :
    literal.occurrences start text =
      ⟨start, start + taken⟩ :: literal.occurrences (start + taken) (text.drop taken) := by
  cases text with
  | nil =>
    have bounds := literal.takes own
    exact absurd (bounds.1.trans_le bounds.2) (Nat.lt_irrefl _)
  | cons item rest =>
    rw [occurrences]
    split
    · next other same =>
      cases own.symm.trans same
      rfl
    · next none => cases own.symm.trans none

theorem occurrences_none {start : Nat} {item : α} {rest : List α}
    (own : literal.heads (item :: rest) = none) :
    literal.occurrences start (item :: rest) = literal.occurrences (start + 1) rest := by
  rw [occurrences]
  split
  · next taken same => cases own.symm.trans same
  · rfl

theorem occurrences_findFrom (start : Nat) (text : List α) : literal.occurrences start text =
    match literal.findFrom start text with
    | none => []
    | some found => found :: literal.occurrences found.stop (text.drop (found.stop - start)) := by
  induction text generalizing start with
  | nil => rw [occurrences_nil, findFrom]
  | cons item rest ih =>
    rw [findFrom]
    cases own : literal.heads (item :: rest) with
    | some taken =>
      rw [literal.occurrences_some own]
      simp only [Nat.add_sub_cancel_left]
    | none =>
      rw [literal.occurrences_none own, ih]
      cases finds : literal.findFrom (start + 1) rest with
      | none => rfl
      | some found =>
        have bounds := literal.findFrom_bounds finds
        have shift : found.stop - start = found.stop - (start + 1) + 1 := by omega
        simp only [shift, List.drop_succ_cons]

/-- Searching on from each match finds the occurrences. -/
theorem ranges_eq (text : List α) (offset : Nat) :
    literal.ranges text offset = literal.occurrences offset (text.drop offset) := by
  induction offset using (measure fun offset => text.length - offset).wf.induction with
  | _ offset ih =>
    rw [ranges, occurrences_findFrom]
    split
    · next none =>
      rw [findAt] at none
      rw [none]
    · next found finds =>
      have bounds := literal.findFrom_bounds finds
      rw [findAt] at finds
      have same : offset + (found.stop - offset) = found.stop := by omega
      rw [finds, ih found.stop (by
        show text.length - found.stop < text.length - offset
        rw [List.length_drop] at bounds
        omega)]
      simp only [List.drop_drop, same]

theorem occurrences_bounds {start : Nat} {text : List α} {found : Extent}
    (mem : found ∈ literal.occurrences start text) :
    start ≤ found.start ∧ found.start < found.stop ∧ found.stop ≤ start + text.length := by
  induction text using (measure List.length).wf.induction generalizing start with
  | _ text ih =>
    cases text with
    | nil =>
      rw [occurrences_nil] at mem
      cases mem
    | cons item rest =>
      cases own : literal.heads (item :: rest) with
      | some taken =>
        obtain ⟨pos, le⟩ := literal.takes own
        rw [literal.occurrences_some own] at mem
        rcases List.mem_cons.mp mem with rfl | later
        · exact ⟨Nat.le_refl _, Nat.lt_add_of_pos_right pos, Nat.add_le_add_left le _⟩
        · have shorter : ((item :: rest).drop taken).length < (item :: rest).length := by
            rw [List.length_drop]
            omega
          have bounds := ih _ shorter later
          rw [List.length_drop] at bounds
          omega
      | none =>
        rw [literal.occurrences_none own] at mem
        have bounds := ih rest (Nat.lt_succ_self _) mem
        rw [List.length_cons]
        omega

/-- Each match starts where the one before it ends, or later. -/
theorem occurrences_ascending (start : Nat) (text : List α) :
    (literal.occurrences start text).Pairwise fun first second => first.stop ≤ second.start := by
  induction text using (measure List.length).wf.induction generalizing start with
  | _ text ih =>
    cases text with
    | nil =>
      rw [occurrences_nil]
      exact List.Pairwise.nil
    | cons item rest =>
      cases own : literal.heads (item :: rest) with
      | some taken =>
        have pos := (literal.takes own).1
        have shorter : ((item :: rest).drop taken).length < (item :: rest).length := by
          rw [List.length_drop, List.length_cons]
          omega
        rw [literal.occurrences_some own]
        exact List.pairwise_cons.mpr
          ⟨fun later mem => (literal.occurrences_bounds mem).1, ih _ shorter _⟩
      | none =>
        rw [literal.occurrences_none own]
        exact ih rest (Nat.lt_succ_self _) _

/-- A text that starts later has the same matches, later. -/
theorem occurrences_shift (front start : Nat) (text : List α) :
    literal.occurrences (front + start) text =
      (literal.occurrences start text).map fun found => ⟨front + found.start, front + found.stop⟩ := by
  induction text using (measure List.length).wf.induction generalizing start with
  | _ text ih =>
    cases text with
    | nil => rw [occurrences_nil, occurrences_nil, List.map_nil]
    | cons item rest =>
      cases own : literal.heads (item :: rest) with
      | some taken =>
        have pos := (literal.takes own).1
        have shorter : ((item :: rest).drop taken).length < (item :: rest).length := by
          rw [List.length_drop, List.length_cons]
          omega
        rw [literal.occurrences_some own, literal.occurrences_some own, Nat.add_assoc,
          ih _ shorter, List.map_cons]
      | none =>
        rw [literal.occurrences_none own, literal.occurrences_none own, Nat.add_assoc,
          ih rest (Nat.lt_succ_self _)]

/-! Texts with a mark that no match takes. -/

/-- No match takes the mark. -/
def Avoids (mark : α) : Prop := ∀ text taken, literal.heads text = some taken → mark ∉ text.take taken

variable {literal} {mark : α}

/-- What follows a mark does not matter for a match before it. -/
theorem heads_mark (avoids : literal.Avoids mark) (before after : List α) :
    literal.heads (before ++ mark :: after) = literal.heads before := by
  cases whole : literal.heads (before ++ mark :: after) with
  | some taken =>
    have short : taken ≤ before.length := by
      by_contra long
      refine avoids _ _ whole ?_
      rw [List.take_append, List.mem_append]
      refine Or.inr ?_
      obtain ⟨more, same⟩ : ∃ more, taken - before.length = more + 1 :=
        ⟨taken - before.length - 1, by omega⟩
      rw [same, List.take_succ_cons]
      exact List.mem_cons_self ..
    have alone := literal.alone whole (before.drop taken)
    rw [List.take_append_of_le_length short, List.take_append_drop] at alone
    exact alone.symm
  | none =>
    cases own : literal.heads before with
    | none => rfl
    | some taken =>
      have short := (literal.takes own).2
      have alone := literal.alone own (before.drop taken ++ mark :: after)
      rw [← List.append_assoc, List.take_append_drop] at alone
      exact nomatch whole.symm.trans alone

/-- A mark parts the matches of a text. -/
theorem occurrences_append_mark (avoids : literal.Avoids mark) (start : Nat) (before after : List α) :
    literal.occurrences start (before ++ mark :: after) =
      literal.occurrences start before ++
        literal.occurrences (start + before.length + 1) after := by
  induction before using (measure List.length).wf.induction generalizing start with
  | _ before ih =>
    have same := heads_mark avoids before after
    cases before with
    | nil =>
      have none : literal.heads (mark :: after) = none := by
        cases own : literal.heads (mark :: after) with
        | none => rfl
        | some taken =>
          have bounds := literal.takes (same.symm.trans own)
          exact absurd (bounds.1.trans_le bounds.2) (Nat.lt_irrefl _)
      rw [occurrences_nil, List.nil_append, literal.occurrences_none none]
      rfl
    | cons item rest =>
      cases own : literal.heads (item :: rest) with
      | some taken =>
        obtain ⟨pos, le⟩ := literal.takes own
        have shorter : ((item :: rest).drop taken).length < (item :: rest).length := by
          rw [List.length_drop]
          omega
        have length : start + taken + ((item :: rest).drop taken).length + 1 =
            start + (item :: rest).length + 1 := by
          rw [List.length_drop]
          omega
        rw [literal.occurrences_some (same.trans own), literal.occurrences_some own,
          List.drop_append_of_le_length le, ih _ shorter, length, List.cons_append]
      | none =>
        rw [own, List.cons_append] at same
        rw [List.cons_append, literal.occurrences_none same, literal.occurrences_none own,
          ih rest (Nat.lt_succ_self _), List.length_cons, Nat.add_assoc start 1, Nat.add_comm 1]

/-- A mark at the end of a text adds no match. -/
theorem occurrences_mark (avoids : literal.Avoids mark) (start : Nat) (before : List α) :
    literal.occurrences start (before ++ [mark]) = literal.occurrences start before := by
  rw [occurrences_append_mark avoids, occurrences_nil, List.append_nil]

end Literal

end ProgressiveReviewer.Library
