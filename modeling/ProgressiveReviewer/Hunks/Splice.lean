import ProgressiveReviewer.Hunks.Lines
import ProgressiveReviewer.Hunks.Classify
import ProgressiveReviewer.Library.Merge

/-! What each edit of the reviewed version writes: every line it writes is a kept line
of the reviewed version, an accepted line of the current file or a restored line of the
base, and it records removals of base lines. An edit's splice is a function of its
input, and running the edit finishes the rebuild that writes the splice. -/

namespace ProgressiveReviewer.Hunks

open Library Library.Extent

/-- Where a written line comes from. -/
inductive Origin where
  | kept (line : Nat)
  | accepted (line : Nat)
  | restored (line : Nat)
  deriving DecidableEq, Repr

/-- The lines an edit writes, and the base lines whose removal it accepts. -/
structure Splice where
  written : List Origin
  removals : List (Nat × MarkAuthor)

namespace HunkReview

variable (d : Differ) (self : HunkReview) (given : MarkAuthor)

def originText : Origin → Bytes
  | .kept line => ((Lines.new self.reviewed)[line]?).getD []
  | .accepted line => ((Lines.new self.current)[line]?).getD []
  | .restored line => ((Lines.new self.base)[line]?).getD []

/-- The author a line of this origin is written with, when `given` accepts. -/
def originAuthor : Origin → MarkAuthor
  | .kept line => self.attribution.addedBy line
  | .accepted _ => given
  | .restored _ => self.attribution.default

def originLine (origin : Origin) : Bytes × MarkAuthor :=
  (self.originText origin, self.originAuthor given origin)

/-- The rebuild after a splice was written on it. -/
def writes (rebuild : Rebuild) (splice : Splice) : Rebuild :=
  rebuild.write (splice.written.map (self.originLine given)) splice.removals

/-- The reviewed version that a splice makes of the one before it. -/
def spliced (splice : Splice) : Reviewed :=
  (self.writes given (Rebuild.on self.attribution) splice).finish d self.base

def keptLines : List Origin := (List.range (Lines.new self.reviewed).length).map .kept

def acceptedLines : List Origin := (List.range (Lines.new self.current).length).map .accepted

def restoredLines : List Origin := (List.range (Lines.new self.base).length).map .restored

@[simp] theorem keptLines_length : self.keptLines.length = (Lines.new self.reviewed).length := by
  simp [keptLines]

@[simp] theorem restoredLines_length :
    self.restoredLines.length = (Lines.new self.base).length := by
  simp [restoredLines]

theorem range_getD {α : Type*} (xs : List α) (fallback : α) :
    ((List.range xs.length).map fun n => (xs[n]?).getD fallback) = xs := by
  apply List.ext_getElem?
  intro n
  by_cases small : n < xs.length
  · simp [small]
  · simp [Nat.le_of_not_lt small]

theorem keptLines_text : self.keptLines.map self.originText = Lines.new self.reviewed := by
  simpa [keptLines, Function.comp_def, originText] using range_getD (Lines.new self.reviewed) []

theorem acceptedLines_text :
    self.acceptedLines.map self.originText = Lines.new self.current := by
  simpa [acceptedLines, Function.comp_def, originText] using range_getD (Lines.new self.current) []

theorem restoredLines_text :
    self.restoredLines.map self.originText = Lines.new self.base := by
  simpa [restoredLines, Function.comp_def, originText] using range_getD (Lines.new self.base) []

theorem cut_map {α β : Type*} (f : α → β) (xs : List α) (r : Range) :
    r.cut (xs.map f) = (r.cut xs).map f := by
  simp [cut]

theorem elements_range {α : Type*} (f : Nat → α) (size : Nat) (ns : List Nat)
    (within : ∀ n ∈ ns, n < size) : elements ((List.range size).map f) ns = ns.map f := by
  induction ns with
  | nil => rfl
  | cons n ns ih =>
    have rest := ih fun m mem => within m (List.mem_cons_of_mem n mem)
    have own := within n List.mem_cons_self
    rw [elements, List.filterMap_cons, List.getElem?_map, List.getElem?_range own]
    exact congrArg (f n :: ·) rest

theorem cut_range {α : Type*} (f : Nat → α) (size : Nat) (r : Range) (h : r.stop ≤ size) :
    r.cut ((List.range size).map f) = r.positions.map f := by
  rw [← elements_positions _ r (by simpa using h)]
  exact elements_range f size r.positions fun n mem => by
    have := (mem_positions r n).mp mem
    omega

theorem writes_nil (rebuild : Rebuild) : self.writes given rebuild ⟨[], []⟩ = rebuild :=
  rebuild.write_nil

theorem writes_writes (rebuild : Rebuild) (first second : Splice) :
    self.writes given (self.writes given rebuild first) second =
      self.writes given rebuild
        ⟨first.written ++ second.written, first.removals ++ second.removals⟩ := by
  simp [writes, Rebuild.write_write]

theorem foldl_kept (rebuild : Rebuild) {range : Range}
    (h : range.stop ≤ (Lines.new self.reviewed).length) :
    (range.positions.zip (range.cut (Lines.new self.reviewed))).foldl
        (fun rebuild entry => rebuild.push entry.2 (self.attribution.addedBy entry.1)) rebuild =
      self.writes given rebuild ⟨range.cut self.keptLines, []⟩ := by
  rw [rebuild.foldl_push (β := Nat × Bytes) (fun entry => entry.2)
      (fun entry => self.attribution.addedBy entry.1), zip_positions [] _ _ h, writes, keptLines, cut_range _ _ _ h]
  simp [Function.comp_def, originLine, originText, originAuthor]

/-- Keeping a range writes its lines. -/
theorem keep_eq (rebuild : Rebuild) (range : Range) :
    rebuild.keep (Lines.new self.reviewed) range self.attribution =
      if range.start ≤ range.stop ∧ range.stop ≤ (Lines.new self.reviewed).length then
        some (self.writes given rebuild ⟨range.cut self.keptLines, []⟩)
      else none := by
  split_ifs with bound
  · simp only [Rebuild.keep, Lines.get_eq_some bound.1 bound.2, Option.bind_eq_bind,
      Option.bind_some, self.foldl_kept given rebuild bound.2]
  · simp [Rebuild.keep, Lines.get, bound]

/-- Writing base lines restores them. -/
theorem foldl_restored (rebuild : Rebuild) (old : Range)
    (h : old.stop ≤ (Lines.new self.base).length) :
    (old.cut (Lines.new self.base)).foldl
        (fun rebuild line => rebuild.push line self.attribution.default) rebuild =
      self.writes given rebuild ⟨old.cut self.restoredLines, []⟩ := by
  rw [rebuild.foldl_push (fun line => line) (fun _ => self.attribution.default), writes,
    ← restoredLines_text, cut_map, List.map_map, restoredLines, cut_range _ _ _ h]
  simp [Function.comp_def, originLine, originAuthor]

/-- The text of a reviewed version after an edit. -/
def textOf : ReviewedVersion → Bytes
  | .current _ => self.current
  | .base => self.base
  | .partially reviewed => reviewed.text

@[simp] theorem textOf_version (reviewed : Reviewed) :
    self.textOf (self.version reviewed) = reviewed.text := by
  unfold version
  split_ifs with isCurrent isBase
  · exact isCurrent.symm
  · exact isBase.symm
  · rfl

@[simp] theorem spliced_text (splice : Splice) :
    (self.spliced d given splice).text = (splice.written.map self.originText).flatten := by
  simp [spliced, writes, Rebuild.write, originLine, Rebuild.on_eq_write, Rebuild.withDefault,
    Function.comp_def]

/-! Reopening a reviewed hunk. -/

def unreviewSplice (range old : Range) : Splice where
  written := cut self.keptLines ⟨0, range.start⟩ ++ (old.cut self.restoredLines ++
    cut self.keptLines ⟨range.stop, (Lines.new self.reviewed).length⟩)
  removals := []

theorem unreview_eq (span : HunkSpan) :
    self.unreview d span =
      (translate (backward (d.changes self.reviewed self.current)) span.new).bind fun range =>
        if range.start ≤ (Lines.new self.reviewed).length ∧
            range.stop ≤ (Lines.new self.reviewed).length ∧
            span.old.start ≤ span.old.stop ∧ span.old.stop ≤ (Lines.new self.base).length then
          some (self.version (self.spliced d given (self.unreviewSplice range span.old)))
        else none := by
  simp only [unreview, Option.bind_eq_bind]
  cases translate (backward (d.changes self.reviewed self.current)) span.new with
  | none => rfl
  | some range =>
    simp only [Option.bind_some, self.keep_eq given, Lines.get]
    by_cases front : range.start ≤ (Lines.new self.reviewed).length
    · by_cases old : span.old.start ≤ span.old.stop ∧ span.old.stop ≤ (Lines.new self.base).length
      · by_cases back : range.stop ≤ (Lines.new self.reviewed).length
        · simp [front, old, back, self.foldl_restored given, writes_writes, spliced,
            unreviewSplice]
        · simp [front, old, back]
      · simp [front, old]
    · simp [front]

/-! Accepting hunks. -/

/-- The edits within one hunk. -/
def insideChanges (span : HunkSpan) : List Change :=
  d.changes (span.old.cut (Lines.new self.reviewed)).flatten
    (span.new.cut (Lines.new self.current)).flatten

def spanOrigin (span : HunkSpan) (offset : Nat) : Origin :=
  match beforeLine (self.insideChanges d span) offset with
  | some kept => .kept (span.old.start + kept)
  | none => .accepted (span.new.start + offset)

def reviewSplice (author : MarkAuthor) : Nat → List HunkSpan → Splice
  | position, [] => ⟨cut self.keptLines ⟨position, (Lines.new self.reviewed).length⟩, []⟩
  | position, span :: spans =>
    let rest := reviewSplice author span.old.stop spans
    { written := cut self.keptLines ⟨position, span.old.start⟩ ++
        ((List.range span.new.size).map (self.spanOrigin d span) ++ rest.written)
      removals := ((self.insideChanges d span).flatMap fun change => change.before.positions).filterMap
          (fun line => (beforeLine (d.changes self.base self.reviewed) (span.old.start + line)).map
            fun base => (base, author)) ++ rest.removals }

/-- A hunk span lies within both versions. -/
def SpanWithin (span : HunkSpan) : Prop :=
  (span.old.start ≤ span.old.stop ∧ span.old.stop ≤ (Lines.new self.reviewed).length) ∧
    span.new.start ≤ span.new.stop ∧ span.new.stop ≤ (Lines.new self.current).length

/-- A line that a hunk keeps is the reviewed line and the current line alike. -/
theorem spanOrigin_text {d : Differ} (valid : d.Valid) {span : HunkSpan}
    (within : self.SpanWithin span) {offset : Nat} (small : offset < span.new.size) :
    self.originText (self.spanOrigin d span offset) =
      self.originText (.accepted (span.new.start + offset)) := by
  have script := valid (span.old.cut (Lines.new self.reviewed)).flatten
    (span.new.cut (Lines.new self.current)).flatten
  rw [Lines.new_cut, Lines.new_cut] at script
  unfold spanOrigin
  cases found : beforeLine (self.insideChanges d span) offset with
  | none => rfl
  | some kept =>
    have placed := placed_of_beforeLine script found
    have same := getElem?_of_placed script placed
    have newSize := cut_length (Lines.new self.current) span.new within.2.2
    have bound : kept < span.old.stop - span.old.start := by
      by_contra outside
      rw [cut_getElem?, if_neg outside, eq_comm, List.getElem?_eq_none_iff, newSize] at same
      omega
    have small' : offset < span.new.stop - span.new.start := small
    simp only [cut_getElem?, if_pos bound, if_pos small'] at same
    simp only [originText, same]

theorem spanOrigin_author (author : MarkAuthor) (span : HunkSpan) (offset : Nat) :
    self.originAuthor author (self.spanOrigin d span offset) =
      self.insideAuthor author span (self.insideChanges d span) offset := by
  unfold spanOrigin insideAuthor
  cases beforeLine (self.insideChanges d span) offset <;> rfl

theorem acceptRemoved_eq (author : MarkAuthor) (span : HunkSpan) (rebuild : Rebuild) :
    self.acceptRemoved d author span (self.insideChanges d span) rebuild =
      self.writes author rebuild ⟨[], ((self.insideChanges d span).flatMap fun change =>
        change.before.positions).filterMap fun line =>
          (beforeLine (d.changes self.base self.reviewed) (span.old.start + line)).map
            fun base => (base, author)⟩ :=
  rebuild.foldl_remove (fun line => beforeLine _ (span.old.start + line)) (fun _ => author) _

theorem acceptAdded_eq {d : Differ} (valid : d.Valid) (author : MarkAuthor) {span : HunkSpan}
    (within : self.SpanWithin span) (rebuild : Rebuild) :
    self.acceptAdded author span (self.insideChanges d span)
        (span.new.cut (Lines.new self.current)) rebuild =
      self.writes author rebuild ⟨(List.range span.new.size).map (self.spanOrigin d span), []⟩ := by
  have size := cut_length (Lines.new self.current) span.new within.2.2
  have entries : (span.new.cut (Lines.new self.current)).zipIdx.map (fun entry =>
      (entry.1, self.insideAuthor author span (self.insideChanges d span) entry.2)) =
      (List.range span.new.size).map fun offset =>
        self.originLine author (self.spanOrigin d span offset) := by
    apply List.ext_getElem?
    intro offset
    simp only [List.getElem?_map, List.getElem?_zipIdx, cut_getElem?, Nat.zero_add]
    by_cases small : offset < span.new.size
    · have bound := within.2
      have small' : offset < span.new.stop - span.new.start := small
      have inside : span.new.start + offset < (Lines.new self.current).length := by omega
      have text : self.originText (self.spanOrigin d span offset) =
          (Lines.new self.current)[span.new.start + offset] := by
        rw [self.spanOrigin_text valid within small, originText, List.getElem?_eq_getElem inside,
          Option.getD_some]
      rw [if_pos small', List.getElem?_range small, List.getElem?_eq_getElem inside]
      simp only [Option.map_some, originLine, text, self.spanOrigin_author d]
    · rw [if_neg (show ¬ offset < span.new.stop - span.new.start from small),
        List.getElem?_eq_none (by simpa using small)]
      rfl
  unfold acceptAdded
  rw [rebuild.foldl_push (β := Bytes × Nat) (fun entry => entry.1)
    (fun entry => self.insideAuthor author span (self.insideChanges d span) entry.2), entries,
    writes, List.map_map]
  rfl

theorem reviewSpans_eq_some {d : Differ} (valid : d.Valid) (author : MarkAuthor)
    {spans : List HunkSpan} {rebuild result : Rebuild} {position : Nat}
    (found : self.reviewSpans d author rebuild position spans = some result) :
    (∀ span ∈ spans, self.SpanWithin span) ∧
      result = self.writes author rebuild (self.reviewSplice d author position spans) := by
  induction spans generalizing rebuild position with
  | nil =>
    rw [reviewSpans, self.keep_eq author] at found
    split_ifs at found
    exact ⟨by simp, (Option.some.inj found).symm⟩
  | cons span spans ih =>
    simp only [reviewSpans, self.keep_eq author, Lines.get, Option.bind_eq_bind,
      Option.bind_eq_some_iff, Option.ite_none_right_eq_some, Option.some.injEq] at found
    obtain ⟨_, ⟨_, rfl⟩, _, ⟨old, rfl⟩, _, ⟨new, rfl⟩, found⟩ := found
    have within : self.SpanWithin span := ⟨old, new⟩
    obtain ⟨rest, eq⟩ := ih found
    refine ⟨?_, ?_⟩
    · rintro other mem
      rcases List.mem_cons.mp mem with rfl | mem
      · exact within
      · exact rest other mem
    · rw [eq, ← insideChanges, self.acceptAdded_eq valid author within, self.acceptRemoved_eq,
        writes_writes, writes_writes, writes_writes, reviewSplice]
      simp

theorem reviewAll_eq_some {d : Differ} (valid : d.Valid) {spans : List HunkSpan}
    {author : MarkAuthor} {version : ReviewedVersion}
    (found : self.reviewAll d spans author = some version) :
    (∀ span ∈ spans, self.SpanWithin span) ∧
      version = self.version (self.spliced d author (self.reviewSplice d author 0
        (spans.insertionSort fun a b => a.old.start ≤ b.old.start))) := by
  simp only [reviewAll, Option.bind_eq_bind, Option.bind_eq_some_iff, Option.some.injEq] at found
  obtain ⟨rebuild, walked, rfl⟩ := found
  obtain ⟨within, rfl⟩ := self.reviewSpans_eq_some valid author walked
  exact ⟨fun span mem => within span (by simpa using mem), rfl⟩

/-! Accepting and reopening picked lines. -/

/-- The positions of a range that its flags pick. -/
def pickedLines (picked : Bool) (range : Range) (flags : List Bool) : List Nat :=
  (range.positions.zip flags).filterMap fun entry => if entry.2 = picked then some entry.1 else none

theorem pickedLines_sublist (picked : Bool) (range : Range) (flags : List Bool) :
    (pickedLines picked range flags).Sublist range.positions := by
  unfold pickedLines
  generalize range.positions = ns
  induction ns generalizing flags with
  | nil => simp
  | cons n ns ih =>
    cases flags with
    | nil => simp
    | cons flag flags =>
      rw [List.zip_cons_cons, List.filterMap_cons]
      split
      · exact (ih flags).cons n
      · next found =>
        simp only [Option.ite_none_right_eq_some, Option.some.injEq] at found
        rw [← found.2]
        exact (ih flags).cons_cons n

/-- An accepted change keeps its unpicked reviewed lines in front of its picked ones. -/
def acceptChoice (entry : Change × Pick) : Choice :=
  ⟨entry.1, pickedLines false entry.1.before entry.2.removed,
    pickedLines true entry.1.after entry.2.added⟩

def acceptRemovals (author : MarkAuthor) (entry : Change × Pick) : List (Nat × MarkAuthor) :=
  (pickedLines true entry.1.before entry.2.removed).filterMap fun line =>
    (beforeLine (d.changes self.base self.reviewed) line).map fun base => (base, author)

def acceptSplice (author : MarkAuthor) (position : Nat) (entries : List (Change × Pick)) :
    Splice where
  written := merge self.keptLines self.acceptedLines position (entries.map acceptChoice)
  removals := entries.flatMap (self.acceptRemovals d author)

/-- A loop over flagged lines that keeps, accepts or skips each writes their splices. -/
theorem foldlM_writes {step : Rebuild → Nat × Bool → Option Rebuild} (splice : Nat × Bool → Splice)
    (each : ∀ rebuild entry result, step rebuild entry = some result →
      result = self.writes given rebuild (splice entry)) {entries : List (Nat × Bool)}
    {rebuild result : Rebuild} (found : entries.foldlM step rebuild = some result) :
    result = self.writes given rebuild
      ⟨entries.flatMap fun entry => (splice entry).written,
        entries.flatMap fun entry => (splice entry).removals⟩ := by
  induction entries generalizing rebuild with
  | nil =>
    rw [List.foldlM_nil] at found
    rw [← Option.some.inj found]
    exact (self.writes_nil given rebuild).symm
  | cons entry entries ih =>
    simp only [List.foldlM_cons, Option.bind_eq_bind, Option.bind_eq_some_iff] at found
    obtain ⟨next, stepped, found⟩ := found
    rw [ih found, each rebuild entry next stepped, writes_writes]
    rfl

theorem elements_pickedLines {f : Nat → Origin} {size : Nat} {range : Range}
    (h : range.stop ≤ size) (picked : Bool) (flags : List Bool) :
    elements ((List.range size).map f) (pickedLines picked range flags) =
      (range.positions.zip flags).flatMap fun entry =>
        if entry.2 = picked then [f entry.1] else [] := by
  rw [elements_range f size _ fun n mem => by
    have := (mem_positions range n).mp ((pickedLines_sublist picked range flags).subset mem)
    omega]
  unfold pickedLines
  generalize range.positions.zip flags = entries
  induction entries with
  | nil => rfl
  | cons entry entries ih =>
    rw [List.filterMap_cons, List.flatMap_cons, ← ih]
    by_cases same : entry.2 = picked <;> simp [same]

theorem filterMap_pickedLines {β : Type*} (g : Nat → Option β) (picked : Bool) (range : Range)
    (flags : List Bool) :
    (pickedLines picked range flags).filterMap g =
      (range.positions.zip flags).flatMap fun entry =>
        if entry.2 = picked then (g entry.1).toList else [] := by
  unfold pickedLines
  generalize range.positions.zip flags = entries
  induction entries with
  | nil => rfl
  | cons entry entries ih =>
    rw [List.filterMap_cons, List.flatMap_cons, ← ih]
    by_cases same : entry.2 = picked
    · cases found : g entry.1 <;> simp [same, found]
    · simp [same]

/-- Keeping one line writes it. -/
theorem keep_line {rebuild result : Rebuild} {line : Nat}
    (kept : rebuild.keep (Lines.new self.reviewed) ⟨line, line + 1⟩ self.attribution = some result) :
    result = self.writes given rebuild ⟨[.kept line], []⟩ := by
  rw [self.keep_eq given] at kept
  split_ifs at kept with bound
  rw [← Option.some.inj kept, keptLines, cut_range _ _ _ bound.2]
  simp [positions]

/-- Pushing one line of a version writes it. -/
theorem push_line {rebuild result : Rebuild} {lines : Lines} {line : Nat} {author : MarkAuthor}
    (origin : Origin) (text : self.originText origin = (lines[line]?).getD [])
    (own : self.originAuthor given origin = author)
    (pushed : ((lines.line line).map fun text => rebuild.push text author) = some result) :
    result = self.writes given rebuild ⟨[origin], []⟩ := by
  obtain ⟨bytes, found, rfl⟩ := Option.map_eq_some_iff.mp pushed
  rw [Rebuild.push_eq_write, writes]
  simp only [Lines.line] at found
  simp [originLine, text, own, found]

theorem acceptChange_eq_some {author : MarkAuthor} {rebuild result : Rebuild} {change : Change}
    {pick : Pick} (before : change.before.stop ≤ (Lines.new self.reviewed).length)
    (after : change.after.stop ≤ (Lines.new self.current).length)
    (found : self.acceptChange d author rebuild change pick = some result) :
    result = self.writes author rebuild
      ⟨elements self.keptLines (acceptChoice (change, pick)).stay ++
        elements self.acceptedLines (acceptChoice (change, pick)).come,
        self.acceptRemovals d author (change, pick)⟩ := by
  simp only [acceptChange, Option.bind_eq_bind, Option.bind_eq_some_iff] at found
  obtain ⟨middle, removed, added⟩ := found
  have first := self.foldlM_writes author (fun entry =>
    ⟨if entry.2 = false then [.kept entry.1] else [],
      if entry.2 = true then ((beforeLine (d.changes self.base self.reviewed) entry.1).map
        fun base => (base, author)).toList else []⟩) (fun rebuild entry result stepped => by
      cases flag : entry.2 with
      | false =>
        simp only [flag, Bool.not_false, if_true] at stepped
        simpa using self.keep_line author stepped
      | true =>
        simp only [flag, Bool.not_true, Bool.false_eq_true, if_false] at stepped
        cases base : beforeLine (d.changes self.base self.reviewed) entry.1 with
        | none =>
          rw [base] at stepped
          rw [← Option.some.inj stepped]
          exact (self.writes_nil author rebuild).symm
        | some base' =>
          rw [base] at stepped
          rw [← Option.some.inj stepped, Rebuild.remove_eq_write]
          rfl) removed
  have second := self.foldlM_writes author (fun entry =>
    ⟨if entry.2 = true then [.accepted entry.1] else [], []⟩) (fun rebuild entry result stepped => by
      cases flag : entry.2 with
      | false =>
        simp only [flag, Bool.false_eq_true, if_false] at stepped
        rw [← Option.some.inj stepped]
        exact (self.writes_nil author rebuild).symm
      | true =>
        simp only [flag, if_true] at stepped
        simpa using self.push_line author (.accepted entry.1) rfl rfl stepped) added
  rw [second, first, writes_writes, keptLines, acceptedLines, acceptChoice, acceptRemovals,
    elements_pickedLines before, elements_pickedLines after, filterMap_pickedLines]
  dsimp only
  rw [List.flatMap_eq_nil_iff.mpr (fun _ _ => rfl), List.append_nil]

theorem acceptFrom_eq_some {author : MarkAuthor} {entries : List (Change × Pick)}
    {rebuild result : Rebuild} {position : Nat}
    (within : ∀ entry ∈ entries, entry.1.before.stop ≤ (Lines.new self.reviewed).length ∧
      entry.1.after.stop ≤ (Lines.new self.current).length)
    (found : self.acceptFrom d author rebuild position entries = some result) :
    result = self.writes author rebuild (self.acceptSplice d author position entries) := by
  induction entries generalizing rebuild position with
  | nil =>
    rw [acceptFrom, self.keep_eq author] at found
    split_ifs at found
    rw [← Option.some.inj found, ← self.keptLines_length, cut_to_end]
    rfl
  | cons entry entries ih =>
    obtain ⟨change, pick⟩ := entry
    simp only [acceptFrom, self.keep_eq author, Option.bind_eq_bind, Option.bind_eq_some_iff,
      Option.ite_none_right_eq_some, Option.some.injEq] at found
    obtain ⟨_, ⟨_, rfl⟩, next, changed, found⟩ := found
    have own := within (change, pick) List.mem_cons_self
    rw [ih (fun entry mem => within entry (List.mem_cons_of_mem _ mem)) found,
      self.acceptChange_eq_some d own.1 own.2 changed, writes_writes, writes_writes]
    simp [acceptSplice, merge, acceptChoice]

/-- A reopened change takes its picked base lines back in front of its unpicked ones. -/
def reopenChoice (entry : Change × Pick) : Choice :=
  ⟨entry.1, pickedLines true entry.1.before entry.2.removed,
    pickedLines false entry.1.after entry.2.added⟩

def reopenWritten : Nat → List (Change × Pick) → List Origin
  | position, [] => self.keptLines.drop position
  | position, entry :: entries =>
    cut self.keptLines ⟨position, entry.1.after.start⟩ ++
      (elements self.restoredLines (reopenChoice entry).stay ++
        (elements self.keptLines (reopenChoice entry).come ++
          reopenWritten entry.1.after.stop entries))

def reopenSplice (position : Nat) (entries : List (Change × Pick)) : Splice :=
  ⟨self.reopenWritten position entries, []⟩

theorem reopenChange_eq_some {rebuild result : Rebuild} {change : Change} {pick : Pick}
    (before : change.before.stop ≤ (Lines.new self.base).length)
    (after : change.after.stop ≤ (Lines.new self.reviewed).length)
    (found : self.reopenChange rebuild change pick = some result) :
    result = self.writes given rebuild
      ⟨elements self.restoredLines (reopenChoice (change, pick)).stay ++
        elements self.keptLines (reopenChoice (change, pick)).come, []⟩ := by
  simp only [reopenChange, Option.bind_eq_bind, Option.bind_eq_some_iff] at found
  obtain ⟨middle, restored, kept⟩ := found
  have first := self.foldlM_writes given (fun entry =>
    ⟨if entry.2 = true then [.restored entry.1] else [], []⟩) (fun rebuild entry result stepped => by
      cases flag : entry.2 with
      | false =>
        simp only [flag, Bool.false_eq_true, if_false] at stepped
        rw [← Option.some.inj stepped]
        exact (self.writes_nil given rebuild).symm
      | true =>
        simp only [flag, if_true] at stepped
        simpa using self.push_line given (.restored entry.1) rfl rfl stepped) restored
  have second := self.foldlM_writes given (fun entry =>
    ⟨if entry.2 = false then [.kept entry.1] else [], []⟩) (fun rebuild entry result stepped => by
      cases flag : entry.2 with
      | false =>
        simp only [flag, Bool.not_false, if_true] at stepped
        simpa using self.keep_line given stepped
      | true =>
        simp only [flag, Bool.not_true, Bool.false_eq_true, if_false] at stepped
        rw [← Option.some.inj stepped]
        exact (self.writes_nil given rebuild).symm) kept
  rw [second, first, writes_writes, restoredLines, keptLines, reopenChoice,
    elements_pickedLines before, elements_pickedLines after]
  dsimp only
  rw [List.flatMap_eq_nil_iff.mpr (fun _ _ => rfl), List.flatMap_eq_nil_iff.mpr (fun _ _ => rfl)]
  rfl

theorem reopenFrom_eq_some {entries : List (Change × Pick)} {rebuild result : Rebuild}
    {position : Nat}
    (within : ∀ entry ∈ entries, entry.1.before.stop ≤ (Lines.new self.base).length ∧
      entry.1.after.stop ≤ (Lines.new self.reviewed).length)
    (found : self.reopenFrom rebuild position entries = some result) :
    result = self.writes given rebuild (self.reopenSplice position entries) := by
  induction entries generalizing rebuild position with
  | nil =>
    rw [reopenFrom, self.keep_eq given] at found
    split_ifs at found
    rw [← Option.some.inj found, ← self.keptLines_length, cut_to_end]
    rfl
  | cons entry entries ih =>
    obtain ⟨change, pick⟩ := entry
    simp only [reopenFrom, self.keep_eq given, Option.bind_eq_bind, Option.bind_eq_some_iff,
      Option.ite_none_right_eq_some, Option.some.injEq] at found
    obtain ⟨_, ⟨_, rfl⟩, next, changed, found⟩ := found
    have own := within (change, pick) List.mem_cons_self
    rw [ih (fun entry mem => within entry (List.mem_cons_of_mem _ mem)) found,
      self.reopenChange_eq_some given own.1 own.2 changed, writes_writes, writes_writes]
    simp [reopenSplice, reopenWritten]

theorem within_zip {xs ys : Lines} {changes : List Change} (script : Script xs ys changes)
    (picks : List Pick) : ∀ entry ∈ changes.zip picks,
      entry.1.before.stop ≤ xs.length ∧ entry.1.after.stop ≤ ys.length := by
  intro entry mem
  have bounds := script.bounds (List.of_mem_zip mem).1
  exact ⟨bounds.2.2.2.2.1, bounds.2.2.2.2.2.1⟩

theorem acceptLines_eq_some {d : Differ} (valid : d.Valid) {selection : LineSelection}
    {author : MarkAuthor} {version : ReviewedVersion}
    (found : self.acceptLines d selection author = some version) :
    ∃ picks, settle (d.changes self.reviewed self.current) (self.acceptPicks d selection)
        (self.acceptMatches d author) = some picks ∧
      version = self.version (self.spliced d author (self.acceptSplice d author 0
        ((d.changes self.reviewed self.current).zip picks))) := by
  simp only [acceptLines, acceptBuild, Option.bind_eq_bind, Option.bind_eq_some_iff,
    Option.map_eq_some_iff, Option.some.injEq] at found
  obtain ⟨picks, settled, _, ⟨rebuild, built, rfl⟩, rfl⟩ := found
  have eq := self.acceptFrom_eq_some d (within_zip (valid self.reviewed self.current) picks) built
  exact ⟨picks, settled, by rw [eq]; rfl⟩

theorem reopenLines_eq_some {d : Differ} (valid : d.Valid) {selection : LineSelection}
    {version : ReviewedVersion} (found : self.reopenLines d selection = some version) :
    ∃ picks, settle (d.changes self.base self.reviewed) (self.reopenPicks d selection)
        (self.reopenMatches d) = some picks ∧
      version = self.version (self.spliced d given (self.reopenSplice 0
        ((d.changes self.base self.reviewed).zip picks))) := by
  simp only [reopenLines, reopenBuild, Option.bind_eq_bind, Option.bind_eq_some_iff,
    Option.map_eq_some_iff, Option.some.injEq] at found
  obtain ⟨picks, settled, _, ⟨rebuild, built, rfl⟩, rfl⟩ := found
  have eq := self.reopenFrom_eq_some given (within_zip (valid self.base self.reviewed) picks) built
  exact ⟨picks, settled, by rw [eq]; rfl⟩

end HunkReview

end ProgressiveReviewer.Hunks
