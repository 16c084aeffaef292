import ProgressiveReviewer.Library.EditScript

/-! Texts as lists of lines that keep their terminators. A list of lines comes from
splitting a text exactly when every line but the last is terminated, so writing
lines one after another gives them back only then. -/

namespace ProgressiveReviewer.Library

open Extent

variable {α : Type*} (nl : α → Bool)

/-- Split after every terminator; a last line without one is kept. -/
def splitInclusive : List α → List (List α)
  | [] => []
  | a :: as =>
    if nl a then [a] :: splitInclusive as
    else match splitInclusive as with
      | [] => [[a]]
      | line :: lines => (a :: line) :: lines

/-- A line that ends with its only terminator. -/
def Terminated (line : List α) : Prop :=
  ∃ body last, line = body ++ [last] ∧ nl last = true ∧ ∀ a ∈ body, nl a = false

/-- A line without a terminator, as only the end of a text leaves one. -/
def Unterminated (line : List α) : Prop := line ≠ [] ∧ ∀ a ∈ line, nl a = false

/-- The lines of some text: all but the last one are terminated. -/
def LineList : List (List α) → Prop
  | [] => True
  | [line] => Terminated nl line ∨ Unterminated nl line
  | line :: next :: lines => Terminated nl line ∧ LineList (next :: lines)

variable {nl}

theorem Terminated.not_unterminated {line : List α} (h : Terminated nl line) :
    ¬ Unterminated nl line := by
  obtain ⟨body, last, rfl, ends, _⟩ := h
  intro open_
  have := open_.2 last (by simp)
  simp_all

theorem Terminated.cons {line : List α} {a : α} (h : Terminated nl line) (ha : nl a = false) :
    Terminated nl (a :: line) := by
  obtain ⟨body, last, rfl, ends, inside⟩ := h
  exact ⟨a :: body, last, rfl, ends, by simpa [ha] using inside⟩

theorem LineList.tail {line : List α} {lines : List (List α)} (h : LineList nl (line :: lines)) :
    LineList nl lines := by
  cases lines with
  | nil => trivial
  | cons next lines => exact h.2

theorem LineList.head {line : List α} {lines : List (List α)} (h : LineList nl (line :: lines)) :
    Terminated nl line ∨ Unterminated nl line := by
  cases lines with
  | nil => exact h
  | cons next lines => exact Or.inl h.1

theorem LineList.of_mem {lines : List (List α)} (h : LineList nl lines) {line : List α}
    (mem : line ∈ lines) : Terminated nl line ∨ Unterminated nl line := by
  induction lines with
  | nil => cases mem
  | cons first lines ih =>
    rcases List.mem_cons.mp mem with rfl | later
    · exact h.head
    · exact ih h.tail later

/-- No line is empty. -/
theorem LineList.ne_nil {lines : List (List α)} (h : LineList nl lines) {line : List α}
    (mem : line ∈ lines) : line ≠ [] := by
  rcases h.of_mem mem with ⟨body, last, rfl, -⟩ | bare
  · simp
  · exact bare.1

theorem lineList_cons {line : List α} {lines : List (List α)} :
    LineList nl (line :: lines) ↔
      LineList nl lines ∧ (Terminated nl line ∨ Unterminated nl line) ∧
        (lines ≠ [] → Terminated nl line) := by
  cases lines with
  | nil => simp [LineList]
  | cons next lines =>
    constructor
    · intro h
      exact ⟨h.2, Or.inl h.1, fun _ => h.1⟩
    · intro h
      exact ⟨h.2.2 (by simp), h.1⟩

theorem lineList_append {as bs : List (List α)} :
    LineList nl (as ++ bs) ↔
      LineList nl as ∧ LineList nl bs ∧ (bs ≠ [] → ∀ line ∈ as, Terminated nl line) := by
  induction as with
  | nil => simp [LineList]
  | cons line as ih =>
    simp only [List.cons_append, lineList_cons, ih, List.mem_cons, forall_eq_or_imp,
      ne_eq, List.append_eq_nil_iff, not_and]
    constructor
    · rintro ⟨⟨ha, hb, hab⟩, own, follow⟩
      refine ⟨⟨ha, own, fun ne => follow fun h => absurd h ne⟩, hb, fun ne => ⟨?_, hab ne⟩⟩
      by_cases hn : as = []
      · exact follow fun _ => ne
      · exact follow fun h => absurd h hn
    · rintro ⟨⟨ha, own, follow⟩, hb, hab⟩
      refine ⟨⟨ha, hb, fun ne => (hab ne).2⟩, own, fun h => ?_⟩
      by_cases hn : as = []
      · exact (hab (h hn)).1
      · exact follow hn

@[simp] theorem flatten_splitInclusive (text : List α) :
    (splitInclusive nl text).flatten = text := by
  induction text with
  | nil => rfl
  | cons a as ih =>
    simp only [splitInclusive]
    split
    · simp [ih]
    · split
      · next h =>
        rw [h] at ih
        simp [← ih]
      · next h =>
        rw [h] at ih
        simp [← ih]

theorem lineList_splitInclusive (text : List α) : LineList nl (splitInclusive nl text) := by
  induction text with
  | nil => trivial
  | cons a as ih =>
    simp only [splitInclusive]
    split
    · next ends =>
      have own : Terminated nl [a] := ⟨[], a, rfl, ends, by simp⟩
      exact lineList_cons.mpr ⟨ih, Or.inl own, fun _ => own⟩
    · next body =>
      have ha : nl a = false := by simpa using body
      split
      · exact Or.inr ⟨by simp, by simpa using ha⟩
      · next line lines h =>
        rw [h] at ih
        have parts := lineList_cons.mp ih
        refine lineList_cons.mpr ⟨parts.1, ?_, fun ne => (parts.2.2 ne).cons ha⟩
        rcases parts.2.1 with ends | open_
        · exact Or.inl (ends.cons ha)
        · exact Or.inr ⟨by simp, by simpa [ha] using open_.2⟩

theorem splitInclusive_unterminated {line : List α} (h : Unterminated nl line) :
    splitInclusive nl line = [line] := by
  obtain ⟨ne, inside⟩ := h
  induction line with
  | nil => exact absurd rfl ne
  | cons a as ih =>
    have ha : nl a = false := inside a List.mem_cons_self
    cases as with
    | nil => simp [splitInclusive, ha]
    | cons b bs =>
      have rest := ih (by simp) fun c mem => inside c (List.mem_cons_of_mem a mem)
      rw [splitInclusive, rest]
      simp [ha]

theorem splitInclusive_terminated_append {line : List α} (h : Terminated nl line)
    (rest : List α) : splitInclusive nl (line ++ rest) = line :: splitInclusive nl rest := by
  obtain ⟨body, last, rfl, ends, inside⟩ := h
  induction body with
  | nil => simp [splitInclusive, ends]
  | cons a as ih =>
    have ha : nl a = false := inside a List.mem_cons_self
    have tail := ih fun c mem => inside c (List.mem_cons_of_mem a mem)
    simp only [List.cons_append, splitInclusive, ha, tail]
    rfl

/-- The lines of a text, written one after another, are its lines again. -/
theorem splitInclusive_flatten {lines : List (List α)} (h : LineList nl lines) :
    splitInclusive nl lines.flatten = lines := by
  induction lines with
  | nil => rfl
  | cons line lines ih =>
    have parts := lineList_cons.mp h
    by_cases hn : lines = []
    · subst hn
      rcases parts.2.1 with ends | open_
      · simpa [splitInclusive] using splitInclusive_terminated_append ends []
      · simpa using splitInclusive_unterminated open_
    · rw [List.flatten_cons, splitInclusive_terminated_append (parts.2.2 hn), ih parts.1]

theorem LineList.cut {lines : List (List α)} (h : LineList nl lines) (r : Extent) :
    LineList nl (r.cut lines) := by
  have rest : LineList nl (lines.drop r.start) := by
    rw [← List.take_append_drop r.start lines] at h
    exact (lineList_append.mp h).2.1
  rw [← List.take_append_drop (r.stop - r.start) (lines.drop r.start)] at rest
  exact (lineList_append.mp rest).1

/-- A line with another line after it is terminated. -/
theorem LineList.terminated_of_cut {lines : List (List α)} (h : LineList nl lines) {r : Extent}
    (before_end : r.stop < lines.length) : ∀ line ∈ r.cut lines, Terminated nl line := by
  by_cases le : r.start ≤ r.stop
  · have split : lines = lines.take r.start ++ (r.cut lines ++ lines.drop r.stop) := by
      rw [cut_append_drop lines le, List.take_append_drop]
    rw [split] at h
    have parts := (lineList_append.mp (lineList_append.mp h).2.1).2.2
    exact parts (by simpa using before_end)
  · rw [cut_empty lines r (by omega)]
    simp

theorem splitInclusive_injective {a b : List α}
    (h : splitInclusive nl a = splitInclusive nl b) : a = b := by
  rw [← @flatten_splitInclusive _ nl a, h, flatten_splitInclusive]

end ProgressiveReviewer.Library
