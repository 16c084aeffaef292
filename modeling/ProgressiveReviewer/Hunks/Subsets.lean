import ProgressiveReviewer.Hunks.Authors
import ProgressiveReviewer.Hunks.UnifiedRows

/-! Accepting some of the hunks a diff shows: every one of them takes its current lines, the
others keep their reviewed ones. -/

namespace ProgressiveReviewer.Hunks

open Library Library.Extent

namespace HunkReview

variable {d : Differ} {self : HunkReview} {author : MarkAuthor}

/-- Spans after one position, each behind the one before it. -/
def Ordered (position : Nat) (spans : List HunkSpan) : Prop :=
  (∀ span ∈ spans, position ≤ span.old.start) ∧
    spans.Pairwise fun a b => a.old.stop ≤ b.old.start

theorem Ordered.cons {position : Nat} {span : HunkSpan} {spans : List HunkSpan}
    (le : span.old.start ≤ span.old.stop) :
    Ordered position (span :: spans) ↔ position ≤ span.old.start ∧ Ordered span.old.stop spans := by
  constructor
  · rintro ⟨after, apart⟩
    obtain ⟨own, apart⟩ := List.pairwise_cons.mp apart
    exact ⟨after span List.mem_cons_self, own, apart⟩
  · rintro ⟨own, after, apart⟩
    refine ⟨List.forall_mem_cons.mpr ⟨own, fun other mem => ?_⟩, List.pairwise_cons.mpr ⟨after, apart⟩⟩
    have := after other mem
    omega

/-- Spans are accepted exactly when they lie within both versions in order. -/
theorem reviewSpans_isSome_iff {rebuild : Rebuild} {position : Nat} {spans : List HunkSpan}
    (within : ∀ span ∈ spans, self.SpanWithin span)
    (bound : position ≤ (Lines.new self.reviewed).length) :
    (self.reviewSpans d author rebuild position spans).isSome = true ↔ Ordered position spans := by
  induction spans generalizing rebuild position with
  | nil =>
    rw [reviewSpans, self.keep_eq author, if_pos ⟨bound, Nat.le_refl _⟩]
    simp [Ordered]
  | cons span spans ih =>
    obtain ⟨own, within⟩ := List.forall_mem_cons.mp within
    rw [Ordered.cons own.1.1]
    by_cases behind : position ≤ span.old.start
    · simp only [reviewSpans, self.keep_eq author, Lines.get_eq_some own.1.1 own.1.2,
        Lines.get_eq_some own.2.1 own.2.2, Option.bind_eq_bind, behind, true_and,
        if_pos (own.1.1.trans own.1.2), Option.bind_some]
      exact ih within own.1.2
    · simp [reviewSpans, self.keep_eq author, behind]

theorem sorted_spans (spans : List HunkSpan) :
    let sorted := spans.insertionSort fun a b => a.old.start ≤ b.old.start
    sorted.Perm spans ∧ sorted.Pairwise fun a b => a.old.start ≤ b.old.start := by
  have total : Std.Total fun a b : HunkSpan => a.old.start ≤ b.old.start :=
    ⟨fun a b => Nat.le_total _ _⟩
  have trans : IsTrans HunkSpan fun a b => a.old.start ≤ b.old.start := ⟨fun a b c => Nat.le_trans⟩
  exact ⟨List.perm_insertionSort _ spans, List.pairwise_insertionSort _ spans⟩

theorem reviewAll_isSome_iff (d : Differ) (author : MarkAuthor) {spans : List HunkSpan}
    (within : ∀ span ∈ spans, self.SpanWithin span) :
    (self.reviewAll d spans author).isSome = true ↔
      Ordered 0 (spans.insertionSort fun a b => a.old.start ≤ b.old.start) := by
  have within' : ∀ span ∈ spans.insertionSort fun a b => a.old.start ≤ b.old.start,
      self.SpanWithin span := fun span mem => within span ((sorted_spans spans).1.mem_iff.mp mem)
  rw [← reviewSpans_isSome_iff within' (Nat.zero_le _), reviewAll, Option.bind_eq_bind]
  cases self.reviewSpans d author (Rebuild.on self.attribution) 0
    (spans.insertionSort fun a b => a.old.start ≤ b.old.start) <;> rfl

variable {rows : List DiffRow}

/-- The spans of the hunks that rows show. -/
def shownSpans (rows : List DiffRow) : List HunkSpan := (openHunks rows).map (·.span)

/-- What becomes of the hunks shown when some of them are accepted: those take their current
lines, the others keep the reviewed ones. -/
def accepted (self : HunkReview) (rows : List DiffRow) (spans : List HunkSpan) : List Bytes :=
  merge (Lines.new self.reviewed) (Lines.new self.current) 0 ((shownSpans rows).map fun span =>
    if span ∈ spans then Choice.take span.edit else .leave span.edit)

variable (shown : ShowsDiff (Lines.new self.reviewed) (Lines.new self.current) rows)
include shown

theorem shown_script : Script (Lines.new self.reviewed) (Lines.new self.current)
    ((shownSpans rows).map HunkSpan.edit) := by
  rw [shownSpans, List.map_map]
  exact shown.openHunks

theorem shown_within {span : HunkSpan} (mem : span ∈ shownSpans rows) : self.SpanWithin span := by
  have bounds := (shown_script shown).bounds (List.mem_map_of_mem mem)
  exact ⟨⟨bounds.2.2.1, bounds.2.2.2.2.1⟩, bounds.2.2.2.1, bounds.2.2.2.2.2.1⟩

/-- The hunks shown come in order, with lines between them. -/
theorem shown_pairwise : (shownSpans rows).Pairwise fun a b => a.old.stop < b.old.start := by
  have apart := (shown_script shown).pairwise
  rw [List.pairwise_map] at apart
  exact apart.imp fun both => both.1

theorem shown_strict : (shownSpans rows).Pairwise fun a b => a.old.start < b.old.start := by
  refine (shown_pairwise shown).imp_of_mem fun {a b} mem _ apart => ?_
  have := (shown_within shown mem).1.1
  omega

theorem shown_starts_nodup : ((shownSpans rows).map fun span => span.old.start).Nodup := by
  rw [List.Nodup, List.pairwise_map]
  exact (shown_strict shown).imp fun less => Nat.ne_of_lt less

/-- Hunks shown that start at one line are one hunk. -/
theorem shown_unique {a b : HunkSpan} (mem : a ∈ shownSpans rows) (mem' : b ∈ shownSpans rows)
    (same : a.old.start = b.old.start) : a = b :=
  List.inj_on_of_nodup_map (shown_starts_nodup shown) mem mem' same

/-- Any order of the same hunks sorts alike. -/
theorem sorted_perm {spans spans' : List HunkSpan} (inside : ∀ span ∈ spans, span ∈ shownSpans rows)
    (perm : spans'.Perm spans) :
    (spans'.insertionSort fun a b => a.old.start ≤ b.old.start) =
      spans.insertionSort fun a b => a.old.start ≤ b.old.start := by
  obtain ⟨same, sorted⟩ := sorted_spans spans
  obtain ⟨same', sorted'⟩ := sorted_spans spans'
  refine List.Perm.eq_of_pairwise (fun a b mem mem' le le' => ?_) sorted' sorted
    (same'.trans (perm.trans same.symm))
  exact shown_unique shown (inside a (perm.mem_iff.mp (same'.mem_iff.mp mem)))
    (inside b (same.mem_iff.mp mem')) (Nat.le_antisymm le le')

/-- Hunks shown, each at most once, sort into a part of those shown. -/
theorem sorted_sublist {spans : List HunkSpan} (inside : ∀ span ∈ spans, span ∈ shownSpans rows)
    (once : spans.Nodup) :
    (spans.insertionSort fun a b => a.old.start ≤ b.old.start).Sublist (shownSpans rows) := by
  obtain ⟨same, sorted⟩ := sorted_spans spans
  exact sublist_of_sorted sorted (same.nodup_iff.mpr once) (shown_strict shown) fun span mem =>
    inside span (same.mem_iff.mp mem)

theorem accepted_eq {spans : List HunkSpan} (inside : ∀ span ∈ spans, span ∈ shownSpans rows)
    (once : spans.Nodup) : accepted self rows spans =
      merge (Lines.new self.reviewed) (Lines.new self.current) 0
        (((spans.insertionSort fun a b => a.old.start ≤ b.old.start).map HunkSpan.edit).map
          Choice.take) := by
  have sub := (sorted_sublist shown inside once).map HunkSpan.edit
  rw [← merge_of sub (shown_script shown), accepted, List.map_map]
  congr 1
  refine List.map_congr_left fun span mem => ?_
  have member : span.edit ∈ (spans.insertionSort fun a b => a.old.start ≤ b.old.start).map
      HunkSpan.edit ↔ span ∈ spans := by
    rw [← (sorted_spans spans).1.mem_iff]
    refine ⟨fun held => ?_, List.mem_map_of_mem⟩
    obtain ⟨other, inSorted, same⟩ := List.mem_map.mp held
    obtain rfl : other = span := by
      cases other
      cases span
      simpa [HunkSpan.edit] using same
    exact inSorted
  simp only [Choice.of, Function.comp_apply, member]

/-- Hunks shown, each named once and in any order, are accepted, and the others stay as they
were. -/
theorem reviewAll_once (valid : d.Valid) {spans : List HunkSpan}
    (inside : ∀ span ∈ spans, span ∈ shownSpans rows) (once : spans.Nodup) :
    ∃ version, self.reviewAll d spans author = some version ∧
      Lines.new (self.textOf version) = accepted self rows spans := by
  have within : ∀ span ∈ spans, self.SpanWithin span := fun span mem =>
    shown_within shown (inside span mem)
  have sub := sorted_sublist shown inside once
  have ordered : Ordered 0 (spans.insertionSort fun a b => a.old.start ≤ b.old.start) :=
    ⟨fun _ _ => Nat.zero_le _, ((shown_pairwise shown).sublist sub).imp fun apart => Nat.le_of_lt apart⟩
  obtain ⟨version, found⟩ := Option.isSome_iff_exists.mp
    ((reviewAll_isSome_iff d author within).mpr ordered)
  obtain ⟨-, rfl⟩ := self.reviewAll_eq_some valid found
  refine ⟨_, found, ?_⟩
  have within' : ∀ span ∈ spans.insertionSort fun a b => a.old.start ≤ b.old.start,
      self.SpanWithin span := fun span mem => within span ((sorted_spans spans).1.mem_iff.mp mem)
  have text := @reviewSplice_text d self author valid _ within' 0
  rw [textOf_version, spliced_text, text]
  refine (splitInclusive_flatten ?_).trans (accepted_eq shown inside once).symm
  exact lineList_take (sub.map HunkSpan.edit) (shown_script shown) (Lines.lineList_new _)
    (Lines.lineList_new _)

theorem accepted_all {spans : List HunkSpan} (all : ∀ span ∈ shownSpans rows, span ∈ spans) :
    accepted self rows spans = Lines.new self.current := by
  have taken : ((shownSpans rows).map fun span =>
      if span ∈ spans then Choice.take span.edit else .leave span.edit) =
      ((shownSpans rows).map HunkSpan.edit).map Choice.take := by
    rw [List.map_map]
    exact List.map_congr_left fun span mem => if_pos (all span mem)
  rw [accepted, taken, merge_take (shown_script shown), List.drop_zero]

/-- A hunk that replaces or removes lines overlaps itself. -/
theorem reviewAll_twice {spans : List HunkSpan} (inside : ∀ span ∈ spans, span ∈ shownSpans rows)
    {span : HunkSpan} (removes : span.old.start < span.old.stop) (twice : 2 ≤ spans.count span) :
    self.reviewAll d spans author = none := by
  have within : ∀ span ∈ spans, self.SpanWithin span := fun span mem =>
    shown_within shown (inside span mem)
  rw [← Option.not_isSome_iff_eq_none, reviewAll_isSome_iff d author within]
  rintro ⟨-, apart⟩
  have sub : [span, span].Sublist (spans.insertionSort fun a b => a.old.start ≤ b.old.start) := by
    refine (List.replicate_sublist_iff (n := 2)).mpr ?_
    rwa [(sorted_spans spans).1.count_eq]
  have both := List.rel_of_pairwise_cons (apart.sublist sub) List.mem_cons_self
  omega

end HunkReview

open HunkReview

/-- Accepting hunks a diff shows, in any order: exactly these take their current lines. A hunk that
replaces or removes lines is not accepted twice. -/
theorem reviewAll_shown {d : Differ} (valid : d.Valid) (self : HunkReview) {rows : List DiffRow}
    (shown : ShowsDiff (Lines.new self.reviewed) (Lines.new self.current) rows)
    {spans : List HunkSpan} (inside : ∀ span ∈ spans, span ∈ shownSpans rows) (author : MarkAuthor) :
    (spans.Nodup → ∃ version, self.reviewAll d spans author = some version ∧
      Lines.new (self.textOf version) = accepted self rows spans) ∧
    (∀ spans', spans'.Perm spans → self.reviewAll d spans' author = self.reviewAll d spans author) ∧
    (spans.Perm (shownSpans rows) → ∃ attribution,
      self.reviewAll d spans author = some (.current attribution)) ∧
    ∀ span : HunkSpan, span.old.start < span.old.stop → 2 ≤ spans.count span →
      self.reviewAll d spans author = none := by
  refine ⟨reviewAll_once shown valid inside, fun spans' perm => ?_, fun all => ?_,
    fun span removes twice => reviewAll_twice shown inside removes twice⟩
  · rw [reviewAll, reviewAll, sorted_perm shown inside perm]
  · have once : spans.Nodup := all.nodup_iff.mpr (shown_starts_nodup shown).of_map
    obtain ⟨version, found, lines⟩ := @reviewAll_once _ _ author _ shown valid _ inside once
    rw [accepted_all shown fun span mem => all.mem_iff.mpr mem] at lines
    have text := Lines.new_injective lines
    obtain ⟨-, rfl⟩ := self.reviewAll_eq_some valid found
    rw [textOf_version] at text
    rw [version, if_pos text] at found
    exact ⟨_, found⟩

/-- A file with a change near its start and one near its end. -/
def twoEnds : HunkReview :=
  .new (bytesOf "a\nb\nc\nd\ne\nf\ng\nh\ni\n") (bytesOf "a\nb\nc\nd\ne\nf\ng\nh\ni\n")
    (bytesOf "A\nb\nc\nd\ne\nf\ng\nh\nI\nJ\n")

def twoEndsDiffer : Differ := tableDiffer [
  ((twoEnds.reviewed, twoEnds.current), [⟨⟨0, 1⟩, ⟨0, 1⟩⟩, ⟨⟨8, 9⟩, ⟨8, 10⟩⟩])]

theorem twoEndsDiffer_valid : twoEndsDiffer.Valid := tableDiffer_valid (by decide)

def twoEndsFile : Marks.ChangedFile := .text (some (bytesOf "f")) (bytesOf "f")

def twoEndsRows : List DiffRow :=
  unifiedRows twoEndsDiffer "f" twoEndsFile twoEnds.reviewed twoEnds.current

theorem twoEnds_shown : ShowsDiff (Lines.new twoEnds.reviewed) (Lines.new twoEnds.current) twoEndsRows :=
  shows_unifiedRows twoEndsDiffer_valid "f" twoEndsFile _ _

/-- The last hunk before the first. -/
theorem reviewAll_shown_backward :
    (twoEnds.reviewAll twoEndsDiffer [⟨⟨8, 9⟩, ⟨8, 10⟩⟩, ⟨⟨0, 1⟩, ⟨0, 1⟩⟩] .reviewer).isSome = true ∧
      twoEnds.reviewAll twoEndsDiffer [⟨⟨8, 9⟩, ⟨8, 10⟩⟩, ⟨⟨8, 9⟩, ⟨8, 10⟩⟩] .reviewer = none := by
  have inside : ∀ span ∈ [(⟨⟨8, 9⟩, ⟨8, 10⟩⟩ : HunkSpan), ⟨⟨0, 1⟩, ⟨0, 1⟩⟩],
      span ∈ shownSpans twoEndsRows := by decide
  have inside' : ∀ span ∈ [(⟨⟨8, 9⟩, ⟨8, 10⟩⟩ : HunkSpan), ⟨⟨8, 9⟩, ⟨8, 10⟩⟩],
      span ∈ shownSpans twoEndsRows := by decide
  have both := reviewAll_shown twoEndsDiffer_valid twoEnds twoEnds_shown inside .reviewer
  have same := reviewAll_shown twoEndsDiffer_valid twoEnds twoEnds_shown inside' .reviewer
  obtain ⟨version, found, -⟩ := both.1 (by decide)
  exact ⟨Option.isSome_iff_exists.mpr ⟨version, found⟩,
    same.2.2.2 ⟨⟨8, 9⟩, ⟨8, 10⟩⟩ (by decide) (by decide)⟩

/-- A hunk shown, named twice, is refused. -/
theorem reviewAll_repeated :
    ShowsDiff (Lines.new twoEnds.reviewed) (Lines.new twoEnds.current) twoEndsRows ∧
      ⟨⟨0, 1⟩, ⟨0, 1⟩⟩ ∈ shownSpans twoEndsRows ∧
      twoEnds.reviewAll twoEndsDiffer [⟨⟨0, 1⟩, ⟨0, 1⟩⟩, ⟨⟨0, 1⟩, ⟨0, 1⟩⟩] .reviewer = none :=
  ⟨twoEnds_shown, by decide, by decide⟩

end ProgressiveReviewer.Hunks
