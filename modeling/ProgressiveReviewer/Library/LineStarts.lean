import ProgressiveReviewer.Library.Fields
import Mathlib.Data.List.Range

/-! Where a pattern leads a line of a text, found in its windows, and the pieces that the
places part the text into. -/

namespace ProgressiveReviewer.Library

section Pieces

variable {α : Type*} {mark : α} {pattern : List α}

/-- The pieces of a text from each place to the next one. -/
def slicesAt (text : List α) : List Nat → List (List α)
  | [] => []
  | start :: rest => (text.take ((rest.head?).getD text.length)).drop start :: slicesAt text rest

/-- Where pieces start that follow each other. -/
def offsets : Nat → List (List α) → List Nat
  | _, [] => []
  | start, piece :: rest => start :: offsets (start + piece.length) rest

theorem map_add_offsets (front start : Nat) (pieces : List (List α)) :
    (offsets start pieces).map (front + ·) = offsets (front + start) pieces := by
  induction pieces generalizing start with
  | nil => rfl
  | cons piece rest ih => rw [offsets, List.map_cons, ih, offsets, Nat.add_assoc]

theorem slicesAt_offsets (front : List α) (pieces : List (List α)) :
    slicesAt (front ++ pieces.flatten) (offsets front.length pieces) = pieces := by
  induction pieces generalizing front with
  | nil => rfl
  | cons piece rest ih =>
    have later := ih (front ++ piece)
    rw [List.length_append, List.append_assoc] at later
    rw [offsets, slicesAt, List.flatten_cons, later]
    refine congrArg (· :: rest) ?_
    cases rest with
    | nil =>
      rw [offsets, List.head?_nil, Option.getD_none, List.take_length, List.drop_left,
        List.flatten_nil, List.append_nil]
    | cons next rest =>
      rw [offsets, List.head?_cons, Option.getD_some, ← List.append_assoc,
        List.take_left' (List.length_append ..), List.drop_left]

/-- A pattern without the mark that stands before a mark ends before it. -/
theorem prefix_append_mark (clean : mark ∉ pattern) (line rest : List α) :
    pattern <+: line ++ mark :: rest ↔ pattern <+: line := by
  refine ⟨fun leads => ?_, fun leads => leads.trans (List.prefix_append ..)⟩
  rcases List.prefix_or_prefix_of_prefix leads (List.prefix_append ..) with short | ⟨more, rfl⟩
  · exact short
  · cases more with
    | nil => exact List.prefix_iff_eq_append.mpr (by simp)
    | cons first more =>
      obtain ⟨same, -⟩ := List.cons_prefix_cons.mp ((List.prefix_append_right_inj line).mp leads)
      exact absurd (List.mem_append_right _ (same ▸ List.mem_cons_self ..)) clean

theorem closeAll_cons (line : List α) (lines : List (List α)) (rest : List α) :
    closeAll mark (line :: lines) ++ rest = line ++ mark :: (closeAll mark lines ++ rest) := by
  simp [closeAll]

theorem closeAll_append (lines more : List (List α)) :
    closeAll mark (lines ++ more) = closeAll mark lines ++ closeAll mark more :=
  List.flatMap_append

end Pieces

variable {α : Type*} [DecidableEq α] {mark : α} {pattern : List α}

/-- A line that stands between marks in a text of lines is one of them. -/
theorem mem_of_infix_closeAll {lines : List (List α)} (clean : ∀ line ∈ lines, mark ∉ line)
    {front line : List α} (own : mark ∉ line)
    (inside : front ++ mark :: (line ++ [mark]) <:+: closeAll mark lines) :
    line ∈ lines ∨ line = [] := by
  obtain ⟨before, after, whole⟩ := inside
  have text : closeAll mark lines = (before ++ front) ++ mark :: (line ++ mark :: after) := by
    rw [← whole]
    simp
  have fields := splitOn_closeAll clean
  rw [text, List.splitOn_append_cons_self, splitOn_append own] at fields
  have mem : line ∈ lines ++ [[]] := by
    rw [← fields]
    exact List.mem_append_right _ (List.mem_cons_self ..)
  exact (List.mem_append.mp mem).imp_right List.mem_singleton.mp

/-- The places in a text where a pattern stands at the start of a line. -/
def lineStarts (mark : α) (pattern text : List α) : List Nat :=
  (List.range text.length).filter fun index =>
    pattern.isPrefixOf (text.drop index) && (index == 0 || text[index - 1]? == some mark)

theorem isPrefixOf_append_mark (clean : mark ∉ pattern) (line rest : List α) :
    pattern.isPrefixOf (line ++ mark :: rest) = pattern.isPrefixOf line := by
  rw [Bool.eq_iff_iff, List.isPrefixOf_iff_prefix, List.isPrefixOf_iff_prefix,
    prefix_append_mark clean]

/-- The first line, and the lines after it. -/
theorem lineStarts_cons (clean : mark ∉ pattern) {line : List α} (own : mark ∉ line)
    (rest : List α) :
    lineStarts mark pattern (line ++ mark :: rest) =
      (if pattern.isPrefixOf line then [0] else []) ++
        (lineStarts mark pattern rest).map ((line.length + 1) + ·) := by
  have length : (line ++ mark :: rest).length = (line.length + 1) + rest.length := by
    rw [List.length_append, List.length_cons]
    omega
  have inside : ((List.range line.length).map Nat.succ).filter (fun index =>
      pattern.isPrefixOf ((line ++ mark :: rest).drop index) &&
        (index == 0 || (line ++ mark :: rest)[index - 1]? == some mark)) = [] := by
    rw [List.filter_eq_nil_iff]
    intro index mem
    obtain ⟨before, small, rfl⟩ := List.mem_map.mp mem
    have short := List.mem_range.mp small
    have other : (line)[before]? ≠ some mark := fun same => own (List.mem_of_getElem? same)
    simp [List.getElem?_append_left short, other]
  rw [lineStarts, length, List.range_add, List.filter_append]
  congr 1
  · rw [List.range_succ_eq_map, List.filter_cons, inside, List.drop_zero,
      isPrefixOf_append_mark clean]
    simp
  · rw [List.filter_map, lineStarts]
    refine congrArg _ (List.filter_congr fun index _ => ?_)
    have dropped : (line ++ mark :: rest).drop (line.length + 1 + index) = rest.drop index := by
      rw [← List.singleton_append, ← List.append_assoc, ← List.drop_drop, List.drop_left' (by simp)]
    rw [Function.comp_apply, dropped]
    cases index with
    | zero => simp
    | succ index =>
      have before : (line ++ mark :: rest)[line.length + 1 + (index + 1) - 1]? = rest[index]? := by
        rw [List.getElem?_append_right (by omega), show line.length + 1 + (index + 1) - 1 -
          line.length = index + 1 by omega, List.getElem?_cons_succ]
      have past : (line.length + 1 + (index + 1) == 0) = false := beq_false_of_ne (by omega)
      rw [before, past]
      rfl

/-- Lines that the pattern does not lead have no places. -/
theorem lineStarts_skip (clean : mark ∉ pattern) {lines : List (List α)}
    (other : ∀ line ∈ lines, mark ∉ line ∧ ¬pattern <+: line) (rest : List α) :
    lineStarts mark pattern (closeAll mark lines ++ rest) =
      (lineStarts mark pattern rest).map ((closeAll mark lines).length + ·) := by
  induction lines with
  | nil => simp [closeAll]
  | cons line lines ih =>
    obtain ⟨⟨own, differs⟩, later⟩ := List.forall_mem_cons.mp other
    rw [closeAll_cons, lineStarts_cons clean own, ih later,
      if_neg (mt List.isPrefixOf_iff_prefix.mp differs), List.nil_append, List.map_map]
    refine List.map_congr_left fun index _ => ?_
    simp only [Function.comp_apply, closeAll, List.flatMap_cons, List.length_append,
      List.length_singleton]
    omega

/-- Pieces of lines of which the pattern leads the first ones only. -/
def LedBy (mark : α) (pattern : List α) (lines : List (List α)) : Prop :=
  ∃ first rest, lines = first :: rest ∧ mark ∉ first ∧ pattern <+: first ∧
    ∀ line ∈ rest, mark ∉ line ∧ ¬pattern <+: line

theorem lineStarts_pieces (clean : mark ∉ pattern) {pieces : List (List (List α))}
    (led : ∀ lines ∈ pieces, LedBy mark pattern lines) :
    lineStarts mark pattern (pieces.map (closeAll mark)).flatten =
      offsets 0 (pieces.map (closeAll mark)) := by
  induction pieces with
  | nil => rfl
  | cons lines pieces ih =>
    obtain ⟨⟨first, rest, rfl, own, leads, other⟩, later⟩ := List.forall_mem_cons.mp led
    rw [List.map_cons, List.flatten_cons, closeAll_cons, lineStarts_cons clean own,
      if_pos (List.isPrefixOf_iff_prefix.mpr leads), lineStarts_skip clean other, ih later, offsets,
      List.map_map, List.singleton_append, Nat.zero_add]
    refine congrArg (0 :: ·) ?_
    rw [← Nat.add_zero (closeAll mark (first :: rest)).length, ← map_add_offsets]
    refine List.map_congr_left fun index _ => ?_
    simp only [Function.comp_apply, closeAll, List.flatMap_cons, List.length_append,
      List.length_singleton]
    omega

/-- A text is parted at its lines that the pattern leads. -/
theorem slicesAt_lineStarts (clean : mark ∉ pattern) {pieces : List (List (List α))}
    (led : ∀ lines ∈ pieces, LedBy mark pattern lines) :
    slicesAt (pieces.map (closeAll mark)).flatten
      (lineStarts mark pattern (pieces.map (closeAll mark)).flatten) = pieces.map (closeAll mark) := by
  rw [lineStarts_pieces clean led]
  exact slicesAt_offsets [] _

/-- Where a pattern first stands in a text. -/
def firstWindow (pattern text : List α) : Option Nat :=
  (List.range text.length).find? fun index => pattern.isPrefixOf (text.drop index)

theorem firstWindow_cons {line : List α} (own : mark ∉ line) (rest : List α) :
    firstWindow (mark :: pattern) (line ++ mark :: rest) =
      if pattern.isPrefixOf rest then some line.length
      else (firstWindow (mark :: pattern) rest).map ((line.length + 1) + ·) := by
  have length : (line ++ mark :: rest).length = line.length + (rest.length + 1) := by
    rw [List.length_append, List.length_cons]
  have inside : (List.range line.length).find? (fun index =>
      (mark :: pattern).isPrefixOf ((line ++ mark :: rest).drop index)) = none := by
    rw [List.find?_eq_none]
    intro index mem leads
    have short := List.mem_range.mp mem
    rw [List.isPrefixOf_iff_prefix, List.drop_append_of_le_length short.le,
      List.drop_eq_getElem_cons short] at leads
    exact own ((List.cons_prefix_cons.mp leads).1 ▸ List.getElem_mem short)
  rw [firstWindow, length, List.range_add, List.find?_append, inside, Option.none_or,
    List.range_succ_eq_map, List.map_cons, List.find?_cons, Nat.add_zero, List.drop_left]
  have here : (mark :: pattern).isPrefixOf (mark :: rest) = pattern.isPrefixOf rest := by
    simp [List.isPrefixOf]
  rw [here]
  cases pattern.isPrefixOf rest with
  | true => rfl
  | false =>
    rw [List.map_map, List.find?_map, firstWindow]
    have shift : ((fun index => (mark :: pattern).isPrefixOf ((line ++ mark :: rest).drop index)) ∘
        ((line.length + ·) ∘ Nat.succ)) = fun index => (mark :: pattern).isPrefixOf (rest.drop index) := by
      funext index
      have dropped : (line ++ mark :: rest).drop (line.length + (index + 1)) = rest.drop index := by
        rw [← List.drop_drop, List.drop_left, List.drop_succ_cons]
      rw [Function.comp_apply, Function.comp_apply, Nat.succ_eq_add_one, dropped]
    rw [shift]
    refine congrArg (Option.map · _) ?_
    funext index
    rw [Function.comp_apply]
    omega

/-- The text up to the first line that a pattern leads, other than its first line. -/
def headTo (mark : α) (pattern text : List α) : List α :=
  text.take (((firstWindow (mark :: pattern) text).map (· + 1)).getD text.length)

theorem headTo_closeAll (clean : mark ∉ pattern) (some_pattern : pattern ≠ []) {first : List α}
    {lines : List (List α)} {rest : List α} (own : mark ∉ first)
    (other : ∀ line ∈ lines, mark ∉ line ∧ ¬pattern <+: line) (follows : rest = [] ∨ pattern <+: rest) :
    headTo mark pattern (closeAll mark (first :: lines) ++ rest) = closeAll mark (first :: lines) := by
  induction lines generalizing first with
  | nil =>
    rw [closeAll_cons, headTo, firstWindow_cons own]
    have one : closeAll mark [first] = first ++ [mark] := List.append_nil _
    rcases follows with rfl | leads
    · have never : pattern.isPrefixOf ([] : List α) = false := by
        cases pattern with
        | nil => exact absurd rfl some_pattern
        | cons => rfl
      have nothing : firstWindow (mark :: pattern) ([] : List α) = none := rfl
      rw [closeAll, List.flatMap_nil, List.append_nil, never, if_neg Bool.false_ne_true, nothing, one]
      exact List.take_length
    · rw [closeAll, List.flatMap_nil, List.nil_append, if_pos (List.isPrefixOf_iff_prefix.mpr leads),
        one]
      show List.take (first.length + 1) (first ++ mark :: rest) = _
      exact (congrArg _ (List.append_cons ..)).trans (List.take_left' (by simp))
  | cons next lines ih =>
    obtain ⟨⟨next_own, differs⟩, later⟩ := List.forall_mem_cons.mp other
    have ih := ih next_own later
    have stays : pattern.isPrefixOf (closeAll mark (next :: lines) ++ rest) = false := by
      rw [closeAll_cons, isPrefixOf_append_mark clean]
      exact Bool.eq_false_iff.mpr (mt List.isPrefixOf_iff_prefix.mp differs)
    have whole : closeAll mark (first :: next :: lines) =
        first ++ mark :: closeAll mark (next :: lines) := by
      simp [closeAll]
    rw [closeAll_cons, headTo, firstWindow_cons own, stays, if_neg Bool.false_ne_true, whole]
    generalize closeAll mark (next :: lines) ++ rest = text at ih ⊢
    rw [← ih, headTo]
    have shift (count : Nat) : (first ++ mark :: text).take (first.length + 1 + count) =
        first ++ mark :: text.take count := by
      rw [Nat.add_assoc, List.take_length_add_append, Nat.add_comm 1, List.take_succ_cons]
    cases found : firstWindow (mark :: pattern) text with
    | none =>
      have length : (first ++ mark :: text).length = first.length + 1 + text.length := by
        rw [List.length_append, List.length_cons]
        omega
      simp only [Option.map_none, Option.getD_none, length, shift]
    | some index => exact shift (index + 1)

end ProgressiveReviewer.Library
