import ProgressiveReviewer.Hunks.DiffText

/-! A diff read backward: the lines of the new version it names, and the old lines in their place. -/

namespace ProgressiveReviewer.Hunks

open Library Library.Extent

theorem hunkNewStart_none {byte : UInt8} (other : byte ≠ 64) (line : Bytes) :
    hunkNewStart (byte :: line) = none := by
  have header : bytesOf "@@ -" = [64, 64, 32, 45] := by decide
  have apart : (bytesOf "@@ -").isPrefixOf (byte :: line) = false := by
    rw [header]
    simp [List.isPrefixOf, Ne.symm other]
  simp [hunkNewStart, apart]

theorem hunkNewStart_hunkHeader {around : Change} (few : around.after.start < lineLimit)
    (few' : around.after.stop < lineLimit) :
    hunkNewStart (bytesOf (hunkHeader around)) = some around.after.start := by
  set count := around.after.stop - around.after.start with counted
  have limit : lineLimit = 2 ^ 31 - 1 := rfl
  have small : headerStart around.after.start count < 2 ^ 32 := by
    unfold headerStart
    split_ifs <;> omega
  have clean : ',' ∉ Nat.toDigits 10 (headerStart around.after.start count) :=
    not_mem_digits (by decide)
  obtain ⟨text, toList, whole⟩ : ∃ text : String, text.toList = oldRange around ++
      ' ' :: (['+'] ++ (newRange around ++ ' ' :: (['@', '@'] ++ []))) ∧
        bytesOf (hunkHeader around) = bytesOf "@@ -" ++ bytesOf text := by
    refine ⟨_, String.toList_ofList, ?_⟩
    rw [bytesOf_eq, toList_hunkHeader, encode_append, bytesOf_eq, bytesOf_eq]
    exact congrArg (fun chars => encode "@@ -".toList ++ encode chars) String.toList_ofList.symm
  have leads : (bytesOf "@@ -").isPrefixOf (bytesOf "@@ -" ++ bytesOf text) :=
    List.isPrefixOf_iff_prefix.mpr ⟨_, rfl⟩
  rw [whole]
  simp only [hunkNewStart, if_pos leads, List.drop_left, Option.bind_eq_bind, Option.bind_some,
    fromUTF8_bytesOf, toList, splitOnce_oldRange, splitOnce_newRange]
  rw [newRange, ← counted, toList_headerRange]
  by_cases one : count = 1
  · rw [if_pos one, List.append_nil, splitOnce_none clean]
    dsimp only
    have shift : headerStart around.after.start count = around.after.start + 1 := if_neg (by omega)
    rw [parseU32_digits small, Option.bind_some, shift, if_neg (by decide),
      if_neg (Nat.succ_ne_zero _), Nat.add_sub_cancel]
  · have parts := splitOnce_append clean [] (Nat.toDigits 10 count)
    rw [List.nil_append] at parts
    rw [if_neg one, parts]
    dsimp only
    rw [parseU32_digits small, parseU32_digits (show count < 2 ^ 32 by omega), Option.bind_some,
      Option.bind_some, headerStart]
    split_ifs with none
    · rfl
    · omega
    · rw [Nat.add_sub_cancel]

/-! ## The old lines, put back -/

namespace ReversePatch

variable {out line : Bytes} {xs ys : Lines} {position i j i' j' : Nat} {flag inHunk : Bool}
  {rest : List Bytes}

theorem read_row {marker : UInt8} (other : marker ≠ 64) (text : Bytes) (patch : ReversePatch) :
    read ys true patch ((marker :: text) :: rest) =
      (patch.push ys (marker :: text)).bind fun patch => read ys true patch rest := by
  rw [read, hunkNewStart_none other]
  rfl

/-- What is said before the first hunk header. -/
theorem read_said {marker : UInt8} (other : marker ≠ 64) (text : Bytes) (patch : ReversePatch) :
    read ys false patch ((marker :: text) :: rest) = read ys false patch rest := by
  rw [read, hunkNewStart_none other]
  rfl

theorem read_noNewline (patch : ReversePatch) : read ys true patch (noNewline :: rest) =
    read ys true (if patch.removedLast then { patch with before := patch.before.dropLast } else patch)
      rest := by
  have marks : noNewline = 92 :: noNewline.tail := by decide
  rw [marks, read_row (by decide)]
  rfl

/-- A line of the new version, kept or added, is read past. -/
theorem read_current {marker : UInt8} (shown : marker = 32 ∨ marker = 43) (own : IsLine line)
    (current : ys[position]? = some line) :
    read ys true ⟨out, position, flag⟩ (markedLine marker line ++ rest) =
      read ys true ⟨if marker = 32 then out ++ line else out, position + 1, false⟩ rest := by
  have other : marker ≠ 64 := by rcases shown with rfl | rfl <;> decide
  rcases own.cases with ⟨body, rfl, -, marked⟩ | ⟨-, bare, marked⟩
  · rw [marked, List.singleton_append, read_row other, push, if_pos shown, Lines.line, current]
    simp [isNewline]
  · rw [marked, List.cons_append, read_row other, push, if_pos shown, Lines.line, current]
    simp [bare, read_noNewline]

/-- A removed line is put back. -/
theorem read_removed (own : IsLine line) :
    read ys true ⟨out, position, flag⟩ (markedLine 45 line ++ rest) =
      read ys true ⟨out ++ line, position, true⟩ rest := by
  rcases own.cases with ⟨body, rfl, -, marked⟩ | ⟨-, -, marked⟩
  · rw [marked, List.singleton_append, read_row (by decide)]
    simp [push]
  · rw [marked, List.cons_append, read_row (by decide)]
    simp [push, read_noNewline]

theorem read_currents {marker : UInt8} (shown : marker = 32 ∨ marker = 43) {texts tail : Lines}
    (own : ∀ line ∈ texts, IsLine line) (here : ys.drop position = texts ++ tail) :
    ∃ flag', read ys true ⟨out, position, flag⟩ (markedLines marker texts ++ rest) =
      read ys true ⟨if marker = 32 then out ++ texts.flatten else out, position + texts.length, flag'⟩
        rest := by
  induction texts generalizing out position flag with
  | nil => exact ⟨flag, by simp [markedLines]⟩
  | cons text texts ih =>
    obtain ⟨first, own⟩ := List.forall_mem_cons.mp own
    obtain ⟨current, next⟩ := current_line here
    obtain ⟨flag', same⟩ := @ih (if marker = 32 then out ++ text else out) _ false own next
    refine ⟨flag', ?_⟩
    rw [markedLines, List.flatMap_cons, List.append_assoc, read_current shown first current]
    refine same.trans ?_
    split_ifs <;> simp [Nat.add_comm, Nat.add_left_comm]

theorem read_removals {texts : Lines} (own : ∀ line ∈ texts, IsLine line) :
    ∃ flag', read ys true ⟨out, position, flag⟩ (markedLines 45 texts ++ rest) =
      read ys true ⟨out ++ texts.flatten, position, flag'⟩ rest := by
  induction texts generalizing out flag with
  | nil => exact ⟨flag, by simp [markedLines]⟩
  | cons text texts ih =>
    obtain ⟨first, own⟩ := List.forall_mem_cons.mp own
    obtain ⟨flag', same⟩ := @ih (out ++ text) true own
    refine ⟨flag', ?_⟩
    rw [markedLines, List.flatMap_cons, List.append_assoc, read_removed first]
    refine same.trans ?_
    simp

theorem take_cut (xs : Lines) (le : i ≤ i') : (xs.take i).flatten ++ (cut xs ⟨i, i'⟩).flatten =
    (xs.take i').flatten := by
  have whole := cut_append_cut xs (Nat.zero_le i) le
  have start : ∀ n, cut xs ⟨0, n⟩ = xs.take n := fun n => by simp [cut]
  rw [start, start] at whole
  rw [← List.flatten_append, whole]

/-- Kept lines, read in the new version, are those of the old one. -/
theorem read_keeps (own : ∀ line ∈ xs, IsLine line) (kept : Kept xs ys i j i' j') :
    ∃ flag', read ys true ⟨(xs.take i).flatten, j, flag⟩ (markedLines 32 (cut xs ⟨i, i'⟩) ++ rest) =
      read ys true ⟨(xs.take i').flatten, j', flag'⟩ rest := by
  have here : ys.drop j = cut xs ⟨i, i'⟩ ++ ys.drop j' := by
    rw [kept.same, cut_append_drop ys kept.le']
  obtain ⟨flag', same⟩ := read_currents (Or.inl rfl) (isLine_cut own _) here
  have size : (cut xs ⟨i, i'⟩).length = i' - i := cut_length xs ⟨i, i'⟩ kept.bound
  have stop : j + (i' - i) = j' := by
    have := kept.le
    have := kept.shift
    omega
  refine ⟨flag', same.trans ?_⟩
  rw [if_pos rfl, take_cut xs kept.le, size, stop]

/-- Reading the lines of a hunk puts the old lines back up to its end. -/
theorem read_body {changes : List Change} (own : ∀ line ∈ xs, IsLine line)
    (own' : ∀ line ∈ ys, IsLine line) (body : Body xs ys i j changes i' j') :
    ∃ flag', read ys true ⟨(xs.take i).flatten, j, flag⟩ (bodyLines xs ys i' i changes ++ rest) =
      read ys true ⟨(xs.take i').flatten, j', flag'⟩ rest := by
  induction changes generalizing i j flag with
  | nil => exact read_keeps own body
  | cons change changes ih =>
    obtain ⟨kept, le, le', bound, bound', -, after⟩ := body
    have here : ys.drop change.after.start = change.after.cut ys ++ ys.drop change.after.stop :=
      (cut_append_drop ys le').symm
    have size : (change.after.cut ys).length = change.after.stop - change.after.start :=
      cut_length ys change.after bound'
    simp only [bodyLines, List.append_assoc]
    obtain ⟨_, same⟩ := read_keeps own kept
    rw [same]
    obtain ⟨_, same⟩ := read_removals (isLine_cut own change.before)
    rw [same, take_cut xs le]
    obtain ⟨_, same⟩ := read_currents (Or.inr rfl) (isLine_cut own' change.after) here
    rw [same, if_neg (by decide), size, Nat.add_sub_cancel' le']
    exact ih after

theorem copyUntil_kept (kept : Kept xs ys i j i' j') :
    copyUntil ⟨(xs.take i).flatten, j, flag⟩ ys j' = some ⟨(xs.take i').flatten, j', flag⟩ := by
  rw [copyUntil, Lines.get_eq_some kept.le' kept.bound', ← kept.same]
  exact congrArg some (congrArg (ReversePatch.mk · j' flag) (take_cut xs kept.le))

theorem read_header {around : Change} (few : around.after.start < lineLimit)
    (few' : around.after.stop < lineLimit) (patch : ReversePatch) :
    read ys inHunk patch (bytesOf (hunkHeader around) :: rest) =
      (patch.copyUntil ys around.after.start).bind fun patch => read ys true patch rest := by
  rw [read, hunkNewStart_hunkHeader few few']
  rfl

/-- Reading the hunks puts every old line back. -/
theorem read_frames {frames : List Frame} {gap : Nat} (own : ∀ line ∈ xs, IsLine line)
    (own' : ∀ line ∈ ys, IsLine line) (few : ys.length < lineLimit)
    (framed : Framed xs ys gap i j frames) :
    ((read ys inHunk ⟨(xs.take i).flatten, j, flag⟩
      (frames.flatMap (frameLines xs ys) ++ [[]])).bind fun patch =>
        patch.copyUntil ys ys.length).map (·.before) = some xs.flatten := by
  induction frames generalizing gap i j flag inHunk with
  | nil =>
    have last : read ys inHunk ⟨(xs.take i).flatten, j, flag⟩ [[]] =
        some ⟨(xs.take i).flatten, j, flag⟩ := by
      cases inHunk <;> rfl
    rw [List.flatMap_nil, List.nil_append, last, Option.bind_some, copyUntil_kept framed,
      List.take_length]
    rfl
  | cons frame frames ih =>
    obtain ⟨-, kept, -, body, framed⟩ := framed
    have bounds := body.bounds
    rw [List.flatMap_cons, frameLines, List.cons_append, List.cons_append,
      read_header (by omega) (by omega), copyUntil_kept kept, Option.bind_some, List.append_assoc]
    obtain ⟨_, same⟩ := read_body own own' body
    rw [same]
    exact ih framed

/-- The lines that name the paths say nothing about the old version. -/
theorem read_paths (path : String) (patch : ReversePatch) :
    read ys false patch (pathLines path ++ rest) = read ys false patch rest := by
  have marks : bytesOf "diff --git a/" = 100 :: (bytesOf "diff --git a/").tail ∧
      bytesOf "--- a/" = 45 :: (bytesOf "--- a/").tail ∧
      bytesOf "+++ b/" = 43 :: (bytesOf "+++ b/").tail := by decide
  simp only [pathLines, String.append_assoc, bytesOf_append, List.cons_append, List.nil_append]
  rw [marks.1, marks.2.1, marks.2.2, List.cons_append, List.cons_append, List.cons_append,
    read_said (by decide), read_said (by decide), read_said (by decide)]

end ReversePatch

/-- Undoing a patch gives the old version back. -/
theorem reverseApply_unifiedDiff {d : Differ} (valid : d.Valid) {path : String}
    (plain : '\n' ∉ path.toList) (a b : Bytes) (few : (Lines.new b).length < lineLimit) :
    reverseApply (unifiedDiff d path a b) b = some a := by
  have own : ∀ text, ∀ line ∈ Lines.new text, IsLine line := fun text _ =>
    isLine_of_mem (Lines.lineList_new text)
  by_cases none : d.changes a b = []
  · obtain rfl := valid.eq_of_nil none
    rw [unifiedDiff, none, if_pos rfl]
    exact reverseApply_nil a
  · have parts : (unifiedDiff d path a b).splitOnP isNewline =
        pathLines path ++ ((frames (Lines.new a) (d.changes a b)).flatMap
          (frameLines (Lines.new a) (Lines.new b)) ++ [[]]) := by
      rw [unifiedDiff_eq valid, ← List.append_assoc]
      refine (splitOn_closeAll (clean_unifiedLines plain a b)).trans ?_
      rw [unifiedLines, if_neg none]
    have whole := @ReversePatch.read_frames _ _ 0 0 false false _ 0 (own a) (own b) few
      (framed_frames (valid a b))
    rw [Lines.flatten_new, List.take_zero, List.flatten_nil] at whole
    rw [reverseApply, parts, ReversePatch.read_paths]
    rw [Option.map_eq_bind, Option.bind_assoc] at whole
    exact whole

/-- A carriage return, a byte that no text has and both missing newlines survive. -/
theorem reverseApply_unifiedDiff_sample :
    reverseApply (unifiedDiff trimmedDiffer "src/f" [97, 13, 10, 255] [98, 10, 255, 10, 97])
      [98, 10, 255, 10, 97] = some [97, 13, 10, 255] :=
  reverseApply_unifiedDiff trimmedDiffer_valid (by decide) _ _ (by decide)

end ProgressiveReviewer.Hunks
