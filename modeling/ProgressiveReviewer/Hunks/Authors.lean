import ProgressiveReviewer.Hunks.Reopen
import ProgressiveReviewer.Hunks.Replay

/-! Each review line keeps its author. Whatever an edit writes, the finished version
credits each of its lines to the author it was written with, as long as the written
lines are the lines of the new text; two written lines that run together, because the
first has no terminator, are the only way an edit can credit a line wrongly. -/

namespace ProgressiveReviewer.Hunks

open Library Library.Extent
open Std (TreeMap)

namespace HunkReview

variable (d : Differ) (self : HunkReview) (given : MarkAuthor)

/-- The version after an edit has the lines its splice wrote, and credits them as the
version before did: a kept line and a base line removed before to the same author,
what the edit accepted to `given`. -/
structure KeepsAuthors (splice : Splice) (after : Reviewed) : Prop where
  lines : Lines.new after.text = splice.written.map self.originText
  kept : ∀ n line, splice.written[n]? = some (.kept line) → Adds d self.base after.text n →
    after.attribution.addedBy n = self.attribution.addedBy line
  accepted : ∀ n line, splice.written[n]? = some (.accepted line) →
    Adds d self.base after.text n → after.attribution.addedBy n = given
  removed : ∀ line, Removes d self.base self.reviewed line → Removes d self.base after.text line →
    after.attribution.removedBy line = self.attribution.removedBy line
  acceptedRemoval : ∀ entry ∈ splice.removals, Removes d self.base after.text entry.1 →
    after.attribution.removedBy entry.1 = given
  canonical : after.attribution.Canonical

/-- An edit's outcome is a version that keeps the authors. -/
def Keeps (splice : Splice) (version : ReviewedVersion) : Prop :=
  ∃ after, version = self.version after ∧ self.KeepsAuthors d given splice after

/-- No written line without a terminator stands in front of another one. -/
def WritesLines (splice : Splice) : Prop :=
  LineList isNewline (splice.written.map self.originText)

/-- The removals are accepted ones of base lines that the version before has. -/
def FreshRemovals (splice : Splice) : Prop :=
  ∀ entry ∈ splice.removals, entry.2 = given ∧ ¬ Removes d self.base self.reviewed entry.1

variable {d} {self} {given}

theorem spliced_authors {splice : Splice} {n : Nat} {origin : Origin}
    (written : splice.written[n]? = some origin) :
    ((self.writes given (Rebuild.on self.attribution) splice).authors[n]?).getD
      (self.writes given (Rebuild.on self.attribution) splice).default =
      self.originAuthor given origin := by
  simp [writes, Rebuild.write, Rebuild.on_eq_write, Rebuild.withDefault, written, originLine]

theorem spliced_addedBy (valid : d.Valid) {splice : Splice} {n : Nat} {origin : Origin}
    (written : splice.written[n]? = some origin)
    (added : Adds d self.base (self.spliced d given splice).text n) :
    (self.spliced d given splice).attribution.addedBy n = self.originAuthor given origin := by
  rw [spliced, Rebuild.finish_addedBy valid _ _ (by simpa [spliced] using added),
    spliced_authors written]

theorem spliced_removedBy (valid : d.Valid) (canonical : self.attribution.Canonical)
    {splice : Splice} {line : Nat} (fresh : ∀ entry ∈ splice.removals, entry.2 = given)
    (removed : Removes d self.base (self.spliced d given splice).text line) :
    (self.spliced d given splice).attribution.removedBy line =
      if (line, given) ∈ splice.removals then given else self.attribution.removedBy line := by
  have default : (self.writes given (Rebuild.on self.attribution) splice).default =
      self.attribution.default := by
    simp [writes, Rebuild.write, Rebuild.on_eq_write, Rebuild.withDefault]
  rw [spliced, Rebuild.finish_removedBy valid _ _ (by simpa [spliced] using removed), default,
    writes, Rebuild.write_removed _ given fun a mem => fresh (line, a) mem]
  split_ifs with own
  · rfl
  · exact Rebuild.on_removed canonical line

/-- An edit keeps the authors exactly when the lines it writes are lines of their own. -/
theorem keeps_spliced_iff (valid : d.Valid) (canonical : self.attribution.Canonical)
    {splice : Splice} (fresh : self.FreshRemovals d given splice) :
    self.Keeps d given splice (self.version (self.spliced d given splice)) ↔
      self.WritesLines splice := by
  constructor
  · rintro ⟨after, same, keeps⟩
    have text := congrArg self.textOf same
    rw [textOf_version, textOf_version] at text
    have lines : Lines.new after.text = splice.written.map self.originText :=
      KeepsAuthors.lines keeps
    rw [WritesLines, ← lines]
    exact Lines.lineList_new after.text
  · intro lines
    refine ⟨_, rfl, ?_, ?_, ?_, ?_, ?_, Rebuild.finish_canonical valid _ _⟩
    · rw [spliced_text, Lines.new, splitInclusive_flatten lines]
    · exact fun n line written added => spliced_addedBy valid written added
    · exact fun n line written added => spliced_addedBy valid written added
    · intro line before after
      rw [spliced_removedBy valid canonical (fun entry mem => (fresh entry mem).1) after,
        if_neg fun mem => (fresh _ mem).2 before]
    · intro entry mem after
      have own : (entry.1, given) ∈ splice.removals := by
        rw [← (fresh entry mem).1]
        exact mem
      rw [spliced_removedBy valid canonical (fun entry mem => (fresh entry mem).1) after,
        if_pos own]

/-- A base line behind a reviewed line is not one the version before removes. -/
theorem not_removes_of_beforeLine (valid : d.Valid) {line base : Nat}
    (found : beforeLine (d.changes self.base self.reviewed) line = some base) :
    ¬ Removes d self.base self.reviewed base := by
  rintro ⟨change, mem, holds⟩
  rw [beforeLine_kept (valid self.base self.reviewed) found mem] at holds
  cases holds

/-! Accepting and reopening hunks. -/

theorem fresh_reviewSplice (valid : d.Valid) (position : Nat) (spans : List HunkSpan) :
    self.FreshRemovals d given (self.reviewSplice d given position spans) := by
  induction spans generalizing position with
  | nil => exact fun entry mem => absurd mem List.not_mem_nil
  | cons span spans ih =>
    intro entry mem
    rcases List.mem_append.mp mem with own | rest
    · obtain ⟨line, _, found⟩ := List.mem_filterMap.mp own
      obtain ⟨base, behind, rfl⟩ := Option.map_eq_some_iff.mp found
      exact ⟨rfl, not_removes_of_beforeLine valid behind⟩
    · exact ih span.old.stop entry rest

theorem fresh_unreviewSplice (range old : Range) :
    self.FreshRemovals d given (self.unreviewSplice range old) :=
  fun _ mem => absurd mem List.not_mem_nil

def spanEdit (span : HunkSpan) : Change := ⟨span.old, span.new⟩

/-- Spans of hunks of the open diff, each at most once: the open diff lists edits that
turn the reviewed version into the current file. -/
def OpenHunks (self : HunkReview) (spans : List HunkSpan) : Prop :=
  spans.Nodup ∧ ∃ edits, Script (Lines.new self.reviewed) (Lines.new self.current) edits ∧
    ∀ span ∈ spans, spanEdit span ∈ edits

theorem reviewSplice_text (valid : d.Valid) {spans : List HunkSpan}
    (within : ∀ span ∈ spans, self.SpanWithin span) (position : Nat) :
    (self.reviewSplice d given position spans).written.map self.originText =
      merge (Lines.new self.reviewed) (Lines.new self.current) position
        ((spans.map spanEdit).map Choice.take) := by
  induction spans generalizing position with
  | nil =>
    simp only [reviewSplice, ← cut_map, keptLines_text, cut_to_end]
    rfl
  | cons span spans ih =>
    have own := within span List.mem_cons_self
    have rest := ih (fun other mem => within other (List.mem_cons_of_mem span mem)) span.old.stop
    have added : ((List.range span.new.size).map (self.spanOrigin d span)).map self.originText =
        span.new.cut (Lines.new self.current) := by
      apply List.ext_getElem?
      intro offset
      rw [cut_getElem?]
      by_cases small : offset < span.new.size
      · have bound := own.2
        have small' : offset < span.new.stop - span.new.start := small
        have inside : span.new.start + offset < (Lines.new self.current).length := by omega
        rw [if_pos small', List.map_map, List.getElem?_map, List.getElem?_range small,
          List.getElem?_eq_getElem inside, Option.map_some, Function.comp_apply,
          self.spanOrigin_text valid own small, originText, List.getElem?_eq_getElem inside,
          Option.getD_some]
      · rw [if_neg (show ¬ offset < span.new.stop - span.new.start from small),
          List.getElem?_eq_none (by simpa using small)]
    simp only [reviewSplice, List.map_append, ← cut_map, keptLines_text, rest, added,
      List.map_cons, merge, Choice.take, spanEdit, elements_nil, List.nil_append,
      elements_positions _ _ own.2.2]

/-- Elements of a list in strict order, listed once and in order, are a sublist of it. -/
theorem sublist_of_sorted {α : Type*} {key : α → Nat} {xs ys : List α}
    (sorted : xs.Pairwise fun a b => key a ≤ key b) (nodup : xs.Nodup)
    (strict : ys.Pairwise fun a b => key a < key b) (sub : ∀ x ∈ xs, x ∈ ys) :
    xs.Sublist ys := by
  induction ys generalizing xs with
  | nil =>
    have empty := List.eq_nil_iff_forall_not_mem.mpr fun x mem => List.not_mem_nil (sub x mem)
    exact empty ▸ List.nil_sublist _
  | cons y ys ih =>
    obtain ⟨first, rest⟩ := List.pairwise_cons.mp strict
    cases xs with
    | nil => exact List.nil_sublist _
    | cons x xs =>
      obtain ⟨least, sortedRest⟩ := List.pairwise_cons.mp sorted
      obtain ⟨fresh, nodupRest⟩ := List.nodup_cons.mp nodup
      rcases List.mem_cons.mp (sub x List.mem_cons_self) with rfl | later
      · refine (ih sortedRest nodupRest rest fun z mem => ?_).cons_cons x
        rcases List.mem_cons.mp (sub z (List.mem_cons_of_mem x mem)) with rfl | inside
        · exact absurd mem fresh
        · exact inside
      · refine (ih sorted nodup rest fun z mem => ?_).cons y
        rcases List.mem_cons.mp (sub z mem) with rfl | inside
        · -- `y` comes strictly before `x`, the least of `xs`
          have less := first x later
          rcases List.mem_cons.mp mem with rfl | mem
          · omega
          · have := least z mem
            omega
        · exact inside

theorem writesLines_reviewSplice (valid : d.Valid) {spans : List HunkSpan}
    (within : ∀ span ∈ spans, self.SpanWithin span) («open» : self.OpenHunks spans) :
    self.WritesLines (self.reviewSplice d given 0
      (spans.insertionSort fun a b => a.old.start ≤ b.old.start)) := by
  obtain ⟨nodup, edits, script, sub⟩ := «open»
  set sorted := spans.insertionSort fun a b => a.old.start ≤ b.old.start with eq
  have perm : sorted.Perm spans := List.perm_insertionSort _ spans
  have inOrder : (sorted.map spanEdit).Pairwise fun a b => a.before.start ≤ b.before.start := by
    rw [List.pairwise_map]
    have total : Std.Total fun a b : HunkSpan => a.old.start ≤ b.old.start :=
      ⟨fun a b => Nat.le_total _ _⟩
    have trans : IsTrans HunkSpan fun a b => a.old.start ≤ b.old.start :=
      ⟨fun a b c => Nat.le_trans⟩
    exact List.pairwise_insertionSort _ spans
  have once : (sorted.map spanEdit).Nodup := by
    refine (perm.nodup_iff.mpr nodup).map fun a b same => ?_
    simp only [spanEdit, Edit.mk.injEq] at same
    cases a
    cases b
    simp_all
  have strict : edits.Pairwise fun a b => a.before.start < b.before.start := by
    refine script.pairwise.imp_of_mem fun {a b} ma _ less => ?_
    have := (script.bounds ma).2.2.1
    omega
  have inside : (sorted.map spanEdit).Sublist edits := by
    refine sublist_of_sorted inOrder once strict fun e mem => ?_
    obtain ⟨span, inSorted, rfl⟩ := List.mem_map.mp mem
    exact sub span (perm.mem_iff.mp inSorted)
  rw [WritesLines, reviewSplice_text valid fun span mem => within span (perm.mem_iff.mp mem)]
  exact lineList_take inside script (Lines.lineList_new _) (Lines.lineList_new _)

/-- A shown reviewed hunk that can be reopened takes back whole lines. -/
theorem writesLines_unreviewSplice (valid : d.Valid) {rows : List DiffRow} {age : MarkAge}
    {h : ReviewedHunk} (shown : h ∈ (self.hunks d rows age).reviewed) {range : Range}
    (found : translate (backward (d.changes self.reviewed self.current)) h.span.new = some range) :
    self.WritesLines (self.unreviewSplice range h.span.old) := by
  obtain ⟨whole, shows_⟩ := self.shows_of_mem valid shown
  have landed := self.translate_backward_iff valid shows_
  rw [found] at landed
  split_ifs at landed
  obtain rfl := Option.some.inj landed
  rw [shows_.2.1]
  exact (self.lines_unreviewSplice valid shows_.1).2

/-! Accepting and reopening lines. -/

theorem widen_length (changes : List Change) (picks : List Pick) (hunk : Extent) :
    (widen changes picks hunk).length = picks.length := by
  unfold widen
  induction hunk.positions generalizing picks with
  | nil => rfl
  | cons index positions ih =>
    rw [List.foldl_cons, ih]
    split <;> simp

/-- Settling changes which lines are picked, not which changes there are. -/
theorem settle_length {changes : List Change} {picks settled : List Pick}
    {«matches» : List Pick → Bool} (found : settle changes picks «matches» = some settled) :
    settled.length = picks.length := by
  have each : ∀ (hunks : List Extent) (picks : List Pick) (step : List Pick → Extent → List Pick),
      (∀ picks hunk, (step picks hunk).length = picks.length) →
        (hunks.foldl step picks).length = picks.length := by
    intro hunks
    induction hunks with
    | nil => exact fun picks step _ => rfl
    | cons hunk hunks ih =>
      intro picks step same
      rw [List.foldl_cons, ih _ step same, same]
  have step : ∀ picks hunk, (if «matches» (alone changes picks hunk) then picks
      else widen changes picks hunk).length = picks.length := by
    intro picks hunk
    split_ifs
    · rfl
    · exact widen_length changes picks hunk
  simp only [settle, Option.ite_none_left_eq_some] at found
  obtain ⟨_, found⟩ := found
  split_ifs at found
  · rw [← Option.some.inj found, each _ _ _ step]
  · rw [← Option.some.inj found, each _ _ _ (widen_length changes), each _ _ _ step]

theorem fresh_acceptSplice (valid : d.Valid) (position : Nat) (entries : List (Change × Pick)) :
    self.FreshRemovals d given (self.acceptSplice d given position entries) := by
  intro entry mem
  obtain ⟨_, _, own⟩ := List.mem_flatMap.mp mem
  obtain ⟨line, _, found⟩ := List.mem_filterMap.mp own
  obtain ⟨base, behind, rfl⟩ := Option.map_eq_some_iff.mp found
  exact ⟨rfl, not_removes_of_beforeLine valid behind⟩

theorem fresh_reopenSplice (position : Nat) (entries : List (Change × Pick)) :
    self.FreshRemovals d given (self.reopenSplice position entries) :=
  fun _ mem => absurd mem List.not_mem_nil

/-- Accepting runs two lines together exactly when the last reviewed line has no
terminator and stays in front of a line that the last open change puts. -/
theorem writesLines_acceptSplice_iff {xs : List Change} (author : MarkAuthor) {picks : List Pick}
    (script : Script (Lines.new self.reviewed) (Lines.new self.current) xs)
    (same : picks.length = xs.length) :
    self.WritesLines (self.acceptSplice d author 0 (xs.zip picks)) ↔
      ¬ Glues isNewline (Lines.new self.reviewed) ((xs.zip picks).map HunkReview.acceptChoice) := by
  have edits : ((xs.zip picks).map HunkReview.acceptChoice).map Choice.edit = xs := by
    rw [List.map_map]
    exact List.map_fst_zip (by omega)
  have script' : ScriptFrom (Lines.new self.reviewed) (Lines.new self.current) 0 0 0
      (((xs.zip picks).map acceptChoice).map Choice.edit) := edits.symm ▸ script
  rw [WritesLines, acceptSplice, ← merge_map, keptLines_text, acceptedLines_text]
  refine lineList_merge script' (fun c mem => ?_) (Lines.lineList_new _) (Lines.lineList_new _)
  obtain ⟨entry, _, rfl⟩ := List.mem_map.mp mem
  exact ⟨pickedLines_sublist _ _ _, pickedLines_sublist _ _ _⟩

/-- What reopening writes, read from the base: the lines the changes keep are equal. -/
theorem reopenWritten_text {gap i j : Nat} {entries : List (Change × Pick)}
    (script : ScriptFrom (Lines.new self.base) (Lines.new self.reviewed) gap i j
      ((entries.map HunkReview.reopenChoice).map Choice.edit)) :
    (self.reopenWritten j entries).map self.originText =
      merge (Lines.new self.base) (Lines.new self.reviewed) i (entries.map HunkReview.reopenChoice) := by
  induction entries generalizing gap i j with
  | nil =>
    rw [reopenWritten, List.map_drop, keptLines_text]
    exact Eq.symm script
  | cons entry entries ih =>
    simp only [reopenWritten, List.map_append, ← cut_map, ← elements_map, keptLines_text,
      restoredLines_text, List.map_cons, merge]
    have rest : (self.reopenWritten entry.1.after.stop entries).map self.originText =
        merge (Lines.new self.base) (Lines.new self.reviewed) entry.1.before.stop
          (entries.map HunkReview.reopenChoice) := ih script.2
    rw [show (reopenChoice entry).edit = entry.1 from rfl, rest]
    rw [show cut (Lines.new self.base) ⟨i, entry.1.before.start⟩ =
      cut (Lines.new self.reviewed) ⟨j, entry.1.after.start⟩ from script.1.kept]

/-- Reopening runs two lines together exactly when the last base line has no terminator
and comes back in front of a line that the last reviewed change keeps. -/
theorem writesLines_reopenSplice_iff {xs : List Change} {picks : List Pick}
    (script : Script (Lines.new self.base) (Lines.new self.reviewed) xs)
    (same : picks.length = xs.length) :
    self.WritesLines (self.reopenSplice 0 (xs.zip picks)) ↔
      ¬ Glues isNewline (Lines.new self.base) ((xs.zip picks).map HunkReview.reopenChoice) := by
  have edits : ((xs.zip picks).map HunkReview.reopenChoice).map Choice.edit = xs := by
    rw [List.map_map]
    exact List.map_fst_zip (by omega)
  have script' : ScriptFrom (Lines.new self.base) (Lines.new self.reviewed) 0 0 0
      (((xs.zip picks).map HunkReview.reopenChoice).map Choice.edit) := edits.symm ▸ script
  rw [WritesLines, reopenSplice, reopenWritten_text script']
  refine lineList_merge script' (fun c mem => ?_) (Lines.lineList_new _) (Lines.lineList_new _)
  obtain ⟨entry, _, rfl⟩ := List.mem_map.mp mem
  exact ⟨pickedLines_sublist _ _ _, pickedLines_sublist _ _ _⟩

end HunkReview

/-! Moving to another base. -/

/-- The version moved to `newBase` has the lines its splice wrote, and credits a line it
kept and a base line it still removes to the author they had. -/
structure ReplayKeeps (d : Differ) (oldBase : Bytes) (reviewed : Reviewed) (newBase : Bytes)
    (after : Reviewed) : Prop where
  lines : Lines.new after.text = (replaySplice (d.changes oldBase newBase)
    (d.changes oldBase reviewed.text) reviewed newBase 0).written.map
      (replayView reviewed newBase).originText
  kept : ∀ n line, (replaySplice (d.changes oldBase newBase) (d.changes oldBase reviewed.text)
      reviewed newBase 0).written[n]? = some (.kept line) → Adds d newBase after.text n →
    after.attribution.addedBy n = reviewed.attribution.addedBy line
  removed : ∀ entry ∈ replayTargets (d.changes oldBase newBase) (d.changes oldBase reviewed.text),
    ∀ line ∈ entry.1.before.positions.zip entry.2.positions, Removes d newBase after.text line.2 →
      after.attribution.removedBy line.2 = reviewed.attribution.removedBy line.1
  canonical : after.attribution.Canonical

theorem mem_zip_positions {r r' : Range} {a b : Nat} (mem : (a, b) ∈ r.positions.zip r'.positions) :
    a + r'.start = b + r.start ∧ r'.start ≤ b ∧ b < r'.stop := by
  have inside := (mem_positions r' b).mp (List.of_mem_zip mem).2
  obtain ⟨n, get⟩ := List.mem_iff_getElem?.mp mem
  rw [List.getElem?_zip_eq_some] at get
  obtain ⟨⟨_, left⟩, ⟨_, right⟩⟩ :=
    And.intro (List.getElem?_eq_some_iff.mp get.1) (List.getElem?_eq_some_iff.mp get.2)
  simp only [positions, List.getElem_range'] at left right
  omega

/-- Each base line a replay records a removal of has one author recorded. -/
theorem replay_removal_unique {olds news revs : Lines} {upstream changes : List Change}
    (up : Script olds news upstream) (own : Script olds revs changes)
    {entry entry' : Change × Range} (mem : entry ∈ replayTargets upstream changes)
    (mem' : entry' ∈ replayTargets upstream changes) {old old' new : Nat}
    (zip : (old, new) ∈ entry.1.before.positions.zip entry.2.positions)
    (zip' : (old', new) ∈ entry'.1.before.positions.zip entry'.2.positions) : old' = old := by
  have at_ := mem_zip_positions zip
  have at' := mem_zip_positions zip'
  rcases pairwise_either (targets_in_order up own) mem mem' with rfl | before | after
  · omega
  · omega
  · omega

theorem replayKeeps_replay {d : Differ} (valid : d.Valid) {oldBase newBase : Bytes}
    (reviewed : Reviewed) (moved : oldBase ≠ newBase) :
    ReplayKeeps d oldBase reviewed newBase (replay d oldBase reviewed newBase) := by
  have up := valid oldBase newBase
  have own := valid oldBase reviewed.text
  have eq : replay d oldBase reviewed newBase =
      ((replayView reviewed newBase).writes .reviewer
        (Rebuild.withDefault reviewed.attribution.default) (replaySplice (d.changes oldBase newBase)
          (d.changes oldBase reviewed.text) reviewed newBase 0)).finish d newBase := by
    rw [replay, if_neg moved, replayFrom_eq up own (List.Sublist.refl _) (Nat.zero_le _)
      (fun _ _ => Nat.zero_le _)]
  rw [eq]
  refine ⟨?_, fun n line written added => ?_, fun entry mem line zip removed => ?_,
    Rebuild.finish_canonical valid _ _⟩
  · rw [Rebuild.finish_text, Lines.new]
    have texts : ((replayView reviewed newBase).writes .reviewer
        (Rebuild.withDefault reviewed.attribution.default) (replaySplice (d.changes oldBase newBase)
          (d.changes oldBase reviewed.text) reviewed newBase 0)).text =
        ((replaySplice (d.changes oldBase newBase) (d.changes oldBase reviewed.text) reviewed
          newBase 0).written.map (replayView reviewed newBase).originText).flatten := by
      simp [HunkReview.writes, Rebuild.write, Rebuild.withDefault, Function.comp_def,
        HunkReview.originLine]
    rw [texts, splitInclusive_flatten (lineList_replaySplice up own).2]
  · rw [Rebuild.finish_addedBy valid _ _ (by simpa using added)]
    simp [HunkReview.writes, Rebuild.write, Rebuild.withDefault, written, HunkReview.originLine,
      HunkReview.originAuthor, replayView]
  · have recorded : (line.2, reviewed.attribution.removedBy line.1) ∈
        (replaySplice (d.changes oldBase newBase) (d.changes oldBase reviewed.text) reviewed
          newBase 0).removals :=
      List.mem_flatMap.mpr ⟨entry, mem, List.mem_map.mpr ⟨line, zip, rfl⟩⟩
    rw [Rebuild.finish_removedBy valid _ _ (by simpa using removed), HunkReview.writes,
      Rebuild.write_removed _ (reviewed.attribution.removedBy line.1), if_pos recorded]
    · rfl
    · intro author other
      obtain ⟨entry', mem', inside⟩ := List.mem_flatMap.mp other
      obtain ⟨line', zip', same⟩ := List.mem_map.mp inside
      obtain ⟨old', new'⟩ := line'
      simp only [Prod.mk.injEq] at same
      obtain ⟨rfl, rfl⟩ := same
      rw [replay_removal_unique up own mem mem' zip zip']

namespace HunkReview

variable {d : Differ} {self : HunkReview}

theorem reviewAll_keeps_iff (valid : d.Valid) (canonical : self.attribution.Canonical)
    {spans : List HunkSpan} {author : MarkAuthor} {version : ReviewedVersion}
    (found : self.reviewAll d spans author = some version) :
    let splice := self.reviewSplice d author 0
      (spans.insertionSort fun a b => a.old.start ≤ b.old.start)
    (self.Keeps d author splice version ↔ self.WritesLines splice) ∧
      (self.OpenHunks spans → self.Keeps d author splice version) := by
  intro splice
  obtain ⟨within, rfl⟩ := self.reviewAll_eq_some valid found
  have iff : self.Keeps d author splice _ ↔ self.WritesLines splice :=
    keeps_spliced_iff valid canonical (fresh_reviewSplice valid 0 _)
  exact ⟨iff, fun «open» => iff.mpr (writesLines_reviewSplice valid within «open»)⟩

theorem unreview_keeps_iff (valid : d.Valid) (canonical : self.attribution.Canonical)
    {span : HunkSpan} {version : ReviewedVersion} (found : self.unreview d span = some version) :
    ∃ range, translate (backward (d.changes self.reviewed self.current)) span.new = some range ∧
      (self.Keeps d .reviewer (self.unreviewSplice range span.old) version ↔
        self.WritesLines (self.unreviewSplice range span.old)) ∧
      ∀ rows age h, h ∈ (self.hunks d rows age).reviewed → h.span = span →
        self.Keeps d .reviewer (self.unreviewSplice range span.old) version := by
  rw [self.unreview_eq d .reviewer] at found
  obtain ⟨range, landed, found⟩ := Option.bind_eq_some_iff.mp found
  split_ifs at found
  obtain rfl := Option.some.inj found
  have iff : self.Keeps d .reviewer (self.unreviewSplice range span.old) _ ↔
      self.WritesLines (self.unreviewSplice range span.old) :=
    keeps_spliced_iff valid canonical (fresh_unreviewSplice range span.old)
  refine ⟨range, landed, iff, fun rows age h shown same => iff.mpr ?_⟩
  subst same
  exact writesLines_unreviewSplice valid shown landed

theorem acceptLines_keeps_iff (valid : d.Valid) (canonical : self.attribution.Canonical)
    {selection : LineSelection} {author : MarkAuthor} {version : ReviewedVersion}
    (found : self.acceptLines d selection author = some version) :
    ∃ picks, settle (d.changes self.reviewed self.current) (self.acceptPicks d selection)
        (self.acceptMatches d author) = some picks ∧
      (self.Keeps d author (self.acceptSplice d author 0
          ((d.changes self.reviewed self.current).zip picks)) version ↔
        ¬ Glues isNewline (Lines.new self.reviewed)
          (((d.changes self.reviewed self.current).zip picks).map HunkReview.acceptChoice)) := by
  obtain ⟨picks, settled, rfl⟩ := self.acceptLines_eq_some valid found
  have same := settle_length settled
  rw [acceptPicks, List.length_map] at same
  refine ⟨picks, settled, ?_⟩
  rw [keeps_spliced_iff valid canonical (fresh_acceptSplice valid 0 _),
    writesLines_acceptSplice_iff author (valid self.reviewed self.current) same]

theorem reopenLines_keeps_iff (valid : d.Valid) (canonical : self.attribution.Canonical)
    {selection : LineSelection} {version : ReviewedVersion}
    (found : self.reopenLines d selection = some version) :
    ∃ picks, settle (d.changes self.base self.reviewed) (self.reopenPicks d selection)
        (self.reopenMatches d) = some picks ∧
      (self.Keeps d .reviewer (self.reopenSplice 0
          ((d.changes self.base self.reviewed).zip picks)) version ↔
        ¬ Glues isNewline (Lines.new self.base)
          (((d.changes self.base self.reviewed).zip picks).map HunkReview.reopenChoice)) := by
  obtain ⟨picks, settled, rfl⟩ := self.reopenLines_eq_some .reviewer valid found
  have same := settle_length settled
  rw [reopenPicks, List.length_map] at same
  refine ⟨picks, settled, ?_⟩
  rw [keeps_spliced_iff valid canonical (fresh_reopenSplice 0 _),
    writesLines_reopenSplice_iff (valid self.base self.reviewed) same]

end HunkReview

/-- A file whose reviewed version ends without a newline in "x": one line each of
"K w k v p p w v x", while the current file has "Z w v z p q". -/
def bareEnd : HunkReview where
  base := [107, 10]
  reviewed := [75, 10, 119, 10, 107, 10, 118, 10, 112, 10, 112, 10, 119, 10, 118, 10, 120]
  current := [90, 10, 119, 10, 118, 10, 122, 10, 112, 10, 113, 10]
  attribution := .uniform .jev

/-- The edits the line differ reports for these versions, and for the version with "p"
accepted against the current file. -/
def bareEndDiffer : Differ := tableDiffer [
  ((bareEnd.base, bareEnd.reviewed), [⟨⟨0, 0⟩, ⟨0, 2⟩⟩, ⟨⟨1, 1⟩, ⟨3, 9⟩⟩]),
  ((bareEnd.reviewed, bareEnd.current), [⟨⟨0, 6⟩, ⟨0, 1⟩⟩, ⟨⟨8, 9⟩, ⟨3, 6⟩⟩]),
  (([75, 10, 119, 10, 118, 10, 112, 10, 112, 10, 119, 10, 118, 10, 120, 112, 10],
    bareEnd.current), [⟨⟨0, 1⟩, ⟨0, 1⟩⟩, ⟨⟨3, 3⟩, ⟨3, 4⟩⟩, ⟨⟨4, 8⟩, ⟨5, 6⟩⟩])]

theorem bareEndDiffer_valid : bareEndDiffer.Valid := tableDiffer_valid (by decide)

end ProgressiveReviewer.Hunks
