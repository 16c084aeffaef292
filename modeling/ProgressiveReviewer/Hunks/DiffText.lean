import ProgressiveReviewer.Hunks.Patch
import ProgressiveReviewer.Library.Fields
import ProgressiveReviewer.Library.Frames
import ProgressiveReviewer.Library.Utf8
import ProgressiveReviewer.Parsers.FileDiff

/-! The lines of a unified diff: what stands before the hunks, and each hunk as a frame. -/

namespace ProgressiveReviewer.Hunks

open Library Library.Extent

theorem bytesOf_eq (text : String) : bytesOf text = encode text.toList := by
  have same : String.ofList text.toList = text := String.ofList_toList
  rw [bytesOf, ← utf8_eq_encode, same]

/-- The differ takes only versions with fewer lines than this. -/
def lineLimit : Nat := 2 ^ 31 - 1

/-- The hunks of a diff, as frames around the differ's changes. -/
def frames (before : Lines) (changes : List Change) : List Frame :=
  (hunkGroups changes).flatMap (framedGroup context before.length)

theorem framed_frames {before after : Lines} {changes : List Change}
    (script : Script before after changes) : Framed before after 0 0 0 (frames before changes) := by
  have flat : (hunkGroups changes).flatten = changes := List.flatten_splitBy _ changes
  have whole : ScriptFrom before after 0 0 0 (hunkGroups changes).flatten := by
    rw [flat]
    exact script
  refine whole.framed (.refl (Nat.zero_le _) (Nat.zero_le _)) (fun _ _ => Nat.zero_le _)
    (List.nil_notMem_splitBy _ changes) ?_
  refine (List.isChain_getLast_head_splitBy _ changes).imp fun group next => ?_
  rintro ⟨some, some', far⟩ last isLast first isFirst
  obtain rfl : group.getLast some = last :=
    Option.some.inj ((List.getLast?_eq_some_getLast some).symm.trans isLast)
  obtain rfl : next.head some' = first :=
    Option.some.inj ((List.head?_eq_some_head some').symm.trans isFirst)
  simp only [decide_eq_false_iff_not, not_le] at far
  omega

/-! ## Lines of a diff -/

def noNewline : Bytes := bytesOf "\\ No newline at end of file"

/-- One line of a version in a diff, which marks a missing newline. -/
def markedLine (marker : UInt8) (line : Bytes) : List Bytes :=
  if line.getLast?.any isNewline then [marker :: line.dropLast] else [marker :: line, noNewline]

def markedLines (marker : UInt8) (lines : Lines) : List Bytes := lines.flatMap (markedLine marker)

/-- The lines of a hunk between two positions of the before side. -/
def bodyLines (before after : Lines) (stop : Nat) : Nat → List Change → List Bytes
  | position, [] => markedLines 32 (cut before ⟨position, stop⟩)
  | position, change :: changes =>
    markedLines 32 (cut before ⟨position, change.before.start⟩) ++
      markedLines 45 (change.before.cut before) ++ markedLines 43 (change.after.cut after) ++
      bodyLines before after stop change.before.stop changes

def hunkHeader (around : Change) : String :=
  "@@ -" ++ headerRange around.before.start (around.before.stop - around.before.start) ++
    " +" ++ headerRange around.after.start (around.after.stop - around.after.start) ++ " @@"

def frameLines (before after : Lines) (frame : Frame) : List Bytes :=
  bytesOf (hunkHeader frame.around) ::
    bodyLines before after frame.around.before.stop frame.around.before.start frame.edits

def pathLines (path : String) : List Bytes :=
  [bytesOf ("diff --git a/" ++ path ++ " b/" ++ path), bytesOf ("--- a/" ++ path),
    bytesOf ("+++ b/" ++ path)]

/-- The lines of the whole diff. -/
def unifiedLines (d : Differ) (path : String) (before after : Bytes) : List Bytes :=
  let changes := d.changes before after
  if changes = [] then []
  else pathLines path ++
    (frames (Lines.new before) changes).flatMap (frameLines (Lines.new before) (Lines.new after))

theorem closeAll_append (xs ys : List Bytes) : closeAll 10 (xs ++ ys) = closeAll 10 xs ++ closeAll 10 ys :=
  List.flatMap_append

theorem getLast?_newline {line : Bytes} (ends : line.getLast?.any isNewline = true) :
    line.dropLast ++ [10] = line := by
  cases last : line.getLast? with
  | none =>
    rw [last] at ends
    cases ends
  | some byte =>
    rw [last] at ends
    obtain rfl : byte = 10 := by simpa [isNewline] using ends
    obtain ⟨body, rfl⟩ := List.getLast?_eq_some_iff.mp last
    rw [List.dropLast_concat]

theorem closeAll_markedLine (marker : UInt8) (line : Bytes) : closeAll 10 (markedLine marker line) =
    marker :: line ++ if line.getLast?.any isNewline then [] else noFinalNewline := by
  unfold markedLine
  split_ifs with ends
  · rw [closeAll, List.flatMap_singleton, List.cons_append, getLast?_newline ends, List.append_nil]
  · have marks : noFinalNewline = 10 :: (noNewline ++ [10]) := by decide
    rw [marks]
    simp [closeAll]

theorem closeAll_markedLines (marker : UInt8) {lines : Lines} {range : Range}
    (le : range.start ≤ range.stop) (bound : range.stop ≤ lines.length) :
    closeAll 10 (markedLines marker (range.cut lines)) = diffLines marker lines range := by
  rw [diffLines, Lines.get_eq_some le bound, Option.getD_some, markedLines]
  generalize range.cut lines = texts
  induction texts with
  | nil => rfl
  | cons line texts ih =>
    rw [List.flatMap_cons, closeAll_append, closeAll_markedLine, ih, List.flatMap_cons]

theorem closeAll_bodyLines {before after : Lines} {i j i' j' : Nat} {changes : List Change}
    (body : Body before after i j changes i' j') :
    closeAll 10 (bodyLines before after i' i changes) = diffChanges before after i' i changes := by
  induction changes generalizing i j with
  | nil => exact closeAll_markedLines 32 body.le body.bound
  | cons change changes ih =>
    obtain ⟨kept, le, le', bound, bound', -, rest⟩ := body
    rw [bodyLines, closeAll_append, closeAll_append, closeAll_append,
      closeAll_markedLines 32 kept.le kept.bound, closeAll_markedLines 45 le bound,
      closeAll_markedLines 43 le' bound', ih rest]
    rfl

theorem diffHunk_eq {before after : Lines} {group : List Change} {frame : Frame}
    (framed : framedGroup context before.length group = [frame])
    (body : Body before after frame.around.before.start frame.around.after.start frame.edits
      frame.around.before.stop frame.around.after.stop) :
    diffHunk before after group = closeAll 10 (frameLines before after frame) := by
  unfold framedGroup at framed
  unfold diffHunk
  split at framed
  · next first last isFirst isLast =>
    obtain rfl := List.singleton_inj.mp framed
    rw [isFirst, isLast]
    have line : bytesOf (hunkHeader (frameOf context before.length first last)) ++ [10] =
        bytesOf (hunkHeader (frameOf context before.length first last) ++ "\n") := by
      rw [bytesOf_append]
      rfl
    rw [frameLines, closeAll, List.flatMap_cons, line]
    have rest := closeAll_bodyLines body
    rw [closeAll] at rest
    rw [rest]
    have header : hunkHeader (frameOf context before.length first last) ++ "\n" =
        "@@ -" ++ headerRange (frameOf context before.length first last).before.start
          ((frameOf context before.length first last).before.stop -
            (frameOf context before.length first last).before.start) ++ " +" ++
          headerRange (frameOf context before.length first last).after.start
          ((frameOf context before.length first last).after.stop -
            (frameOf context before.length first last).after.start) ++ " @@\n" :=
      String.append_assoc
    rw [header]
    rfl
  · cases framed

theorem diffHunks_eq {before after : Lines} {gap i j : Nat} {groups : List (List Change)}
    (framed : Framed before after gap i j (groups.flatMap (framedGroup context before.length))) :
    groups.flatMap (diffHunk before after) = closeAll 10
      ((groups.flatMap (framedGroup context before.length)).flatMap (frameLines before after)) := by
  induction groups generalizing gap i j with
  | nil => rfl
  | cons group groups ih =>
    rw [List.flatMap_cons] at framed ⊢
    rw [List.flatMap_cons]
    cases group with
    | nil => exact ih framed
    | cons first rest =>
      obtain ⟨last, isLast⟩ : ∃ last, (first :: rest).getLast? = some last :=
        ⟨_, List.getLast?_eq_some_getLast (List.cons_ne_nil first rest)⟩
      have group : framedGroup context before.length (first :: rest) =
          [⟨frameOf context before.length first last, first :: rest⟩] := by
        rw [framedGroup, isLast]
        rfl
      rw [group, List.singleton_append] at framed ⊢
      rw [List.flatMap_cons, closeAll_append, ← ih framed.2.2.2.2, diffHunk_eq group framed.2.2.2.1]

/-- A diff is its lines, each closed by a newline. -/
theorem unifiedDiff_eq {d : Differ} (valid : d.Valid) (path : String) (before after : Bytes) :
    unifiedDiff d path before after = closeAll 10 (unifiedLines d path before after) := by
  unfold unifiedDiff unifiedLines
  have framed := framed_frames (valid before after)
  unfold frames at framed ⊢
  generalize d.changes before after = changes at framed
  dsimp only
  split_ifs with none
  · rfl
  · rw [closeAll_append, diffHunks_eq framed]
    congr 1
    have line : ∀ text : String, bytesOf (text ++ "\n") = bytesOf text ++ [10] := fun text => by
      rw [bytesOf_append]
      rfl
    simp only [pathLines, closeAll, List.flatMap_cons, List.flatMap_nil, List.append_nil, ← line,
      ← bytesOf_append]
    simp only [String.append_assoc]
    rfl

/-! ## Hunk headers -/

theorem fromUTF8_bytesOf (text : String) : String.fromUTF8? ⟨(bytesOf text).toArray⟩ = some text := by
  have same : (⟨(bytesOf text).toArray⟩ : ByteArray) = text.toByteArray := rfl
  rw [same, String.fromUTF8?, dif_pos text.isValidUTF8]
  rfl

theorem toDigits_spec (number : Nat) :
    Nat.toDigits 10 number ≠ [] ∧ (∀ digit ∈ Nat.toDigits 10 number, digit.isDigit = true) ∧
      (Nat.toDigits 10 number).foldl (fun number digit => number * 10 + (digit.toNat - 48)) 0 =
        number := by
  refine ⟨Nat.toDigits_ne_nil, fun digit mem =>
    Nat.isDigit_of_mem_toDigits (by decide) (by decide) mem, ?_⟩
  refine Eq.trans ?_ (Nat.ofDigitChars_ten_toDigits (n := number))
  rw [Nat.ofDigitChars]
  congr 1
  funext number digit
  rw [Nat.mul_comm]
  rfl

theorem parseU32_digits {number : Nat} (small : number < 2 ^ 32) :
    parseU32 (Nat.toDigits 10 number) = some number := by
  obtain ⟨nonempty, digits, value⟩ := toDigits_spec number
  generalize Nat.toDigits 10 number = chars at nonempty digits value
  cases chars with
  | nil => exact absurd rfl nonempty
  | cons first rest =>
    have plain : first ≠ '+' := by
      rintro rfl
      exact absurd (digits '+' List.mem_cons_self) (by decide)
    have all : (first :: rest).all Char.isDigit = true := List.all_eq_true.mpr digits
    unfold parseU32
    split
    · next digits same =>
      cases same
      exact absurd rfl plain
    · dsimp only
      rw [value, all]
      simpa using small

/-- A character that no digit is does not stand in a number. -/
theorem not_mem_digits {number : Nat} {mark : Char} (other : mark.isDigit = false) :
    mark ∉ Nat.toDigits 10 number := fun mem =>
  Bool.false_ne_true (other.symm.trans ((toDigits_spec number).2.1 mark mem))

theorem splitOnce_append {mark : Char} {front : List Char} (clean : mark ∉ front)
    (pattern rest : List Char) :
    splitOnce (mark :: pattern) (front ++ mark :: (pattern ++ rest)) = some (front, rest) := by
  induction front with
  | nil =>
    have leads : (mark :: pattern).isPrefixOf (mark :: (pattern ++ rest)) = true :=
      List.isPrefixOf_iff_prefix.mpr ⟨rest, rfl⟩
    rw [List.nil_append, splitOnce, if_pos leads]
    simp
  | cons char front ih =>
    obtain ⟨differs, clean⟩ := not_or.mp (mt List.mem_cons.mpr clean)
    have apart : (mark :: pattern).isPrefixOf (char :: (front ++ mark :: (pattern ++ rest))) =
        false := by
      simp [List.isPrefixOf, differs]
    rw [List.cons_append, splitOnce, apart, if_neg Bool.false_ne_true, ih clean]
    rfl

theorem splitOnce_none {mark : Char} {pattern text : List Char} (clean : mark ∉ text) :
    splitOnce (mark :: pattern) text = none := by
  induction text with
  | nil => rfl
  | cons char text ih =>
    obtain ⟨differs, clean⟩ := not_or.mp (mt List.mem_cons.mpr clean)
    have apart : (mark :: pattern).isPrefixOf (char :: text) = false := by
      simp [List.isPrefixOf, differs]
    rw [splitOnce, apart, if_neg Bool.false_ne_true, ih clean]
    rfl

/-- The first number of a hunk header's range. -/
def headerStart (start count : Nat) : Nat := if count = 0 then start else start + 1

theorem toList_headerRange (start count : Nat) : (headerRange start count).toList =
    Nat.toDigits 10 (headerStart start count) ++
      if count = 1 then [] else ',' :: Nat.toDigits 10 count := by
  have digits : ∀ number : Nat, (toString number).toList = Nat.toDigits 10 number :=
    fun _ => Nat.toList_repr
  unfold headerRange headerStart
  split_ifs with none one
  · omega
  · subst none
    rw [String.toList_append, digits]
    rfl
  · rw [digits, List.append_nil]
  · rw [String.toList_append, String.toList_append, digits, digits, List.append_assoc]
    rfl

theorem parseRange_headerRange {start count : Nat} (small : headerStart start count < 2 ^ 32)
    (few : count < 2 ^ 32) : Parsers.ActiveHunk.parseRange (headerRange start count).toList =
      some (headerStart start count, count) := by
  have clean : ',' ∉ Nat.toDigits 10 (headerStart start count) := not_mem_digits (by decide)
  rw [toList_headerRange, Parsers.ActiveHunk.parseRange]
  split_ifs with one
  · rw [List.append_nil, splitOnce_none clean, parseU32_digits small, one]
    rfl
  · have split := splitOnce_append clean [] (Nat.toDigits 10 count)
    rw [List.nil_append] at split
    rw [split]
    dsimp only
    rw [parseU32_digits small, parseU32_digits few]
    rfl

theorem not_mem_headerRange {start count : Nat} {mark : Char} (other : mark.isDigit = false)
    (noComma : mark ≠ ',') : mark ∉ (headerRange start count).toList := by
  rw [toList_headerRange]
  split_ifs <;> simp [not_mem_digits other, noComma]

def oldRange (around : Change) : List Char :=
  (headerRange around.before.start (around.before.stop - around.before.start)).toList

def newRange (around : Change) : List Char :=
  (headerRange around.after.start (around.after.stop - around.after.start)).toList

/-- A hunk header, up to where its parser splits it. -/
theorem toList_hunkHeader (around : Change) : (hunkHeader around).toList =
    "@@ -".toList ++ (oldRange around ++ ' ' :: (['+'] ++ (newRange around ++
      ' ' :: (['@', '@'] ++ [])))) := by
  simp only [hunkHeader, String.toList_append, List.append_assoc]
  rfl

theorem splitOnce_oldRange (around : Change) (rest : List Char) :
    splitOnce [' ', '+'] (oldRange around ++ ' ' :: (['+'] ++ rest)) =
      some (oldRange around, rest) :=
  splitOnce_append (not_mem_headerRange (by decide) (by decide)) _ _

theorem splitOnce_newRange (around : Change) (rest : List Char) :
    splitOnce [' ', '@', '@'] (newRange around ++ ' ' :: (['@', '@'] ++ rest)) =
      some (newRange around, rest) :=
  splitOnce_append (not_mem_headerRange (by decide) (by decide)) _ _

/-! ## Lines without a newline inside -/

theorem newline_not_mem {text : String} (plain : '\n' ∉ text.toList) : 10 ∉ bytesOf text := by
  rw [bytesOf_eq]
  exact fun mem => plain (mem_encode newline_ascii mem)

theorem not_mem_hunkHeader (around : Change) : '\n' ∉ (hunkHeader around).toList := by
  have old : '\n' ∉ oldRange around := not_mem_headerRange (by decide) (by decide)
  have new : '\n' ∉ newRange around := not_mem_headerRange (by decide) (by decide)
  rw [toList_hunkHeader]
  simp [old, new]

/-- A line of a version, as a text is split into them. -/
def IsLine (line : Bytes) : Prop := Terminated isNewline line ∨ Unterminated isNewline line

theorem isLine_of_mem {lines : Lines} (list : LineList isNewline lines) {line : Bytes}
    (mem : line ∈ lines) : IsLine line := by
  induction lines with
  | nil => cases mem
  | cons first rest ih =>
    rcases List.mem_cons.mp mem with rfl | mem
    · exact list.head
    · exact ih list.tail mem

theorem isLine_cut {lines : Lines} (own : ∀ line ∈ lines, IsLine line) (range : Range) :
    ∀ line ∈ range.cut lines, IsLine line := fun line mem =>
  own line (List.mem_of_mem_drop (List.mem_of_mem_take mem))

/-- The line at a position and the lines after it. -/
theorem current_line {ys : Lines} {position : Nat} {text : Bytes} {texts tail : Lines}
    (here : ys.drop position = text :: texts ++ tail) :
    ys[position]? = some text ∧ ys.drop (position + 1) = texts ++ tail := by
  refine ⟨?_, ?_⟩
  · rw [← List.head?_drop, here]
    rfl
  · rw [← List.tail_drop, here]
    rfl

/-- Either a line ends with its newline or it lacks one. -/
theorem IsLine.cases {line : Bytes} (own : IsLine line) :
    (∃ body, line = body ++ [10] ∧ 10 ∉ body ∧ ∀ marker, markedLine marker line = [marker :: body]) ∨
      (10 ∉ line ∧ line.getLast?.any isNewline = false ∧
        ∀ marker, markedLine marker line = [marker :: line, noNewline]) := by
  rcases own with ⟨body, last, rfl, ends, inside⟩ | ⟨some, inside⟩
  · obtain rfl : last = 10 := by simpa [isNewline] using ends
    refine Or.inl ⟨body, rfl, fun mem => absurd (inside 10 mem) (by decide), fun marker => ?_⟩
    rw [markedLine, List.getLast?_concat, List.dropLast_concat]
    rfl
  · have clean : line.getLast?.any isNewline = false := by
      rw [List.getLast?_eq_some_getLast some, Option.any_some]
      exact inside _ (List.getLast_mem some)
    refine Or.inr ⟨fun mem => absurd (inside 10 mem) (by decide), clean, fun marker => ?_⟩
    rw [markedLine, clean]
    rfl

theorem clean_markedLines {marker : UInt8} (other : marker ≠ 10) {lines : Lines}
    (own : ∀ line ∈ lines, IsLine line) : ∀ line ∈ markedLines marker lines, 10 ∉ line := by
  intro line mem
  obtain ⟨text, inside, mem⟩ := List.mem_flatMap.mp mem
  rcases (own text inside).cases with ⟨body, -, clean, marked⟩ | ⟨clean, -, marked⟩
  · rw [marked, List.mem_singleton] at mem
    subst mem
    simp [Ne.symm other, clean]
  · rw [marked] at mem
    rcases List.mem_cons.mp mem with rfl | mem
    · simp [Ne.symm other, clean]
    · rw [List.mem_singleton.mp mem]
      decide

theorem clean_bodyLines {before after : Lines} (own : ∀ line ∈ before, IsLine line)
    (own' : ∀ line ∈ after, IsLine line) {stop i : Nat} {changes : List Change} :
    ∀ line ∈ bodyLines before after stop i changes, 10 ∉ line := by
  induction changes generalizing i with
  | nil => exact clean_markedLines (by decide) (isLine_cut own _)
  | cons change changes ih =>
    simp only [bodyLines, List.forall_mem_append]
    exact ⟨⟨⟨clean_markedLines (by decide) (isLine_cut own _),
      clean_markedLines (by decide) (isLine_cut own _)⟩,
      clean_markedLines (by decide) (isLine_cut own' _)⟩, ih⟩

theorem clean_pathLines {path : String} (plain : '\n' ∉ path.toList) :
    ∀ line ∈ pathLines path, 10 ∉ line := by
  simp only [pathLines, List.forall_mem_cons]
  refine ⟨newline_not_mem ?_, newline_not_mem ?_, newline_not_mem ?_, fun _ mem => by cases mem⟩ <;>
    simp [plain]

/-- No line of a diff has a newline inside. -/
theorem clean_unifiedLines {d : Differ} {path : String} (plain : '\n' ∉ path.toList)
    (before after : Bytes) : ∀ line ∈ unifiedLines d path before after, 10 ∉ line := by
  have own : ∀ text, ∀ line ∈ Lines.new text, IsLine line := fun text _ =>
    isLine_of_mem (Lines.lineList_new text)
  unfold unifiedLines
  dsimp only
  split_ifs with none
  · exact fun _ mem => by cases mem
  · rw [List.forall_mem_append]
    refine ⟨clean_pathLines plain, fun line mem => ?_⟩
    obtain ⟨frame, -, mem⟩ := List.mem_flatMap.mp mem
    rcases List.mem_cons.mp mem with rfl | mem
    · exact newline_not_mem (not_mem_hunkHeader _)
    · exact clean_bodyLines (own before) (own after) line mem

end ProgressiveReviewer.Hunks
