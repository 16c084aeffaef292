import ProgressiveReviewer.Hunks.Settling

/-! Writing picked lines (`review-hunks/src/lines.rs`). The edits of the differ lie
within the texts, so accepting and reopening always write a version, whatever the
picks; and the lines of a pick are told apart by a test on their positions. -/

namespace ProgressiveReviewer.Hunks

open Library Library.Extent

/-- Two steps that go through go through together. -/
theorem exists_bind {α β : Type} {first : Option α} {second : α → Option β}
    (found : ∃ a, first = some a) (next : ∀ a, ∃ b, second a = some b) :
    ∃ b, first >>= second = some b := by
  obtain ⟨a, rfl⟩ := found
  exact next a

/-- A loop each step of which goes through goes through. -/
theorem exists_foldlM {α β : Type} {step : β → α → Option β} {entries : List α}
    (each : ∀ entry ∈ entries, ∀ now, ∃ next, step now entry = some next) (now : β) :
    ∃ result, entries.foldlM step now = some result := by
  induction entries generalizing now with
  | nil => exact ⟨now, rfl⟩
  | cons entry entries ih =>
    rw [List.foldlM_cons]
    exact exists_bind (each entry List.mem_cons_self now) fun next =>
      ih (fun entry mem => each entry (List.mem_cons_of_mem _ mem)) next

namespace HunkReview

variable (d : Differ) (self : HunkReview)

theorem exists_keep (rebuild : Rebuild) {range : Range} (le : range.start ≤ range.stop)
    (within : range.stop ≤ (Lines.new self.reviewed).length) :
    ∃ next, rebuild.keep (Lines.new self.reviewed) range self.attribution = some next := by
  rw [self.keep_eq .reviewer, if_pos ⟨le, within⟩]
  exact ⟨_, rfl⟩

/-- Pushing a line of a version goes through. -/
theorem exists_push (rebuild : Rebuild) {lines : Lines} {index : Nat} (author : MarkAuthor)
    (within : index < lines.length) :
    ∃ next, ((lines.line index).map fun line => rebuild.push line author) = some next := by
  rw [Lines.line, List.getElem?_eq_getElem within]
  exact ⟨_, rfl⟩

theorem exists_acceptChange (author : MarkAuthor) (rebuild : Rebuild) {change : Change} (pick : Pick)
    (before : change.before.stop ≤ (Lines.new self.reviewed).length)
    (after : change.after.stop ≤ (Lines.new self.current).length) :
    ∃ next, self.acceptChange d author rebuild change pick = some next := by
  refine exists_bind (exists_foldlM (fun entry mem rebuild => ?_) rebuild) fun middle =>
    exists_foldlM (fun entry mem rebuild => ?_) middle
  · have own := (mem_positions _ _).mp (List.of_mem_zip mem).1
    cases entry.2 with
    | false => exact self.exists_keep rebuild (Nat.le_succ _) (by dsimp only; omega)
    | true =>
      simp only [Bool.not_true, Bool.false_eq_true, if_false]
      split
      · exact ⟨_, rfl⟩
      · exact ⟨_, rfl⟩
  · have own := (mem_positions _ _).mp (List.of_mem_zip mem).1
    cases entry.2 with
    | false => exact ⟨_, rfl⟩
    | true => exact exists_push rebuild author (by omega)

theorem exists_acceptFrom (author : MarkAuthor) (entries : List (Change × Pick)) {gap i j : Nat}
    (script : ScriptFrom (Lines.new self.reviewed) (Lines.new self.current) gap i j
      (entries.map Prod.fst)) (start : i ≤ (Lines.new self.reviewed).length) (rebuild : Rebuild) :
    ∃ result, self.acceptFrom d author rebuild i entries = some result := by
  induction entries generalizing gap i j rebuild with
  | nil => exact self.exists_keep rebuild start (Nat.le_refl _)
  | cons entry entries ih =>
    have fit := script.1
    have bounds := script.bounds (e := entry.1) List.mem_cons_self
    refine exists_bind (self.exists_keep rebuild ?_ ?_) fun next =>
      exists_bind (self.exists_acceptChange d author next entry.2 ?_ ?_) fun last =>
        ih script.2 ?_ last
    · have := fit.before_start
      dsimp only
      omega
    · dsimp only
      omega
    all_goals omega

theorem exists_reopenChange (rebuild : Rebuild) {change : Change} (pick : Pick)
    (before : change.before.stop ≤ (Lines.new self.base).length)
    (after : change.after.stop ≤ (Lines.new self.reviewed).length) :
    ∃ next, self.reopenChange rebuild change pick = some next := by
  refine exists_bind (exists_foldlM (fun entry mem rebuild => ?_) rebuild) fun middle =>
    exists_foldlM (fun entry mem rebuild => ?_) middle
  · have own := (mem_positions _ _).mp (List.of_mem_zip mem).1
    cases entry.2 with
    | false => exact ⟨_, rfl⟩
    | true => exact exists_push rebuild self.attribution.default (by omega)
  · have own := (mem_positions _ _).mp (List.of_mem_zip mem).1
    cases entry.2 with
    | false => exact self.exists_keep rebuild (Nat.le_succ _) (by dsimp only; omega)
    | true => exact ⟨_, rfl⟩

theorem exists_reopenFrom (entries : List (Change × Pick)) {gap i j : Nat}
    (script : ScriptFrom (Lines.new self.base) (Lines.new self.reviewed) gap i j
      (entries.map Prod.fst)) (start : j ≤ (Lines.new self.reviewed).length) (rebuild : Rebuild) :
    ∃ result, self.reopenFrom rebuild j entries = some result := by
  induction entries generalizing gap i j rebuild with
  | nil => exact self.exists_keep rebuild start (Nat.le_refl _)
  | cons entry entries ih =>
    have fit := script.1
    have bounds := script.bounds (e := entry.1) List.mem_cons_self
    refine exists_bind (self.exists_keep rebuild ?_ ?_) fun next =>
      exists_bind (self.exists_reopenChange next entry.2 ?_ ?_) fun last =>
        ih script.2 ?_ last
    · have := fit.after_start
      dsimp only
      omega
    · dsimp only
      omega
    all_goals omega

variable {d}

theorem zip_changes {changes : List Change} {picks : List Pick}
    (same : picks.length = changes.length) : (changes.zip picks).map Prod.fst = changes :=
  List.map_fst_zip (Nat.le_of_eq same.symm)

/-- Accepting writes a version whatever the picks. -/
theorem acceptBuild_eq (valid : d.Valid) (author : MarkAuthor) {picks : List Pick}
    (same : picks.length = (d.changes self.reviewed self.current).length) :
    self.acceptBuild d author picks = some (self.spliced d author
      (self.acceptSplice d author 0 ((d.changes self.reviewed self.current).zip picks))) := by
  have script := valid self.reviewed self.current
  obtain ⟨rebuild, built⟩ := self.exists_acceptFrom d author
    ((d.changes self.reviewed self.current).zip picks)
    (by rw [zip_changes same]; exact script) (Nat.zero_le _) (Rebuild.on self.attribution)
  rw [acceptBuild, built, self.acceptFrom_eq_some d (within_zip script picks) built]
  rfl

/-- Reopening writes a version whatever the picks. -/
theorem reopenBuild_eq (valid : d.Valid) (given : MarkAuthor) {picks : List Pick}
    (same : picks.length = (d.changes self.base self.reviewed).length) :
    self.reopenBuild d picks = some (self.spliced d given
      (self.reopenSplice 0 ((d.changes self.base self.reviewed).zip picks))) := by
  have script := valid self.base self.reviewed
  obtain ⟨rebuild, built⟩ := self.exists_reopenFrom
    ((d.changes self.base self.reviewed).zip picks)
    (by rw [zip_changes same]; exact script) (Nat.zero_le _) (Rebuild.on self.attribution)
  rw [reopenBuild, built, self.reopenFrom_eq_some given (within_zip script picks) built]
  rfl

end HunkReview

/-- A hunk in which nothing is picked comes out as it is. -/
theorem cut_untouched {changes : List Change} {picks : List Pick}
    {«matches» : List Pick → Bool} (same : picks.length = changes.length) {hunk : Extent}
    (mem : hunk ∈ hunks changes) (clear : hunk.cut picks = (hunk.cut changes).map Pick.none) :
    hunk.cut (widenAll changes (widened changes picks «matches») picks) = hunk.cut picks := by
  rcases cut_settled same mem with ⟨wide, -⟩ | ⟨-, kept⟩
  · have touched := (mem_widened.mp wide).2.1
    rw [touches, clear, List.any_map, List.any_eq_true] at touched
    obtain ⟨change, -, picked⟩ := touched
    simp [Pick.none, Pick.any] at picked
  · exact kept

/-- A settled pick is the given one or every line of its change. -/
theorem pick_settled {changes : List Change} {given : Change → Pick} {wide : List Extent}
    {entry : Change × Pick} (mem : entry ∈ changes.zip (widenAll changes wide (changes.map given))) :
    entry.2 = given entry.1 ∨ entry.2 = Pick.every entry.1 := by
  obtain ⟨index, get⟩ := List.mem_iff_getElem?.mp mem
  rw [List.getElem?_zip_eq_some, widenAll_getElem? (List.length_map _)] at get
  obtain ⟨change, pick⟩ := get
  split_ifs at pick
  · rw [change, Option.map_some] at pick
    exact Or.inr (Option.some.inj pick).symm
  · rw [List.getElem?_map, change, Option.map_some] at pick
    exact Or.inl (Option.some.inj pick).symm

/-! Picks that test positions. -/

/-- The pick of a change whose lines two tests tell apart. -/
def Pick.of (change : Change) (removed added : Nat → Bool) : Pick :=
  ⟨change.before.positions.map removed, change.after.positions.map added⟩

theorem Pick.every_eq (change : Change) : Pick.every change = .of change (fun _ => true) fun _ => true := by
  simp [Pick.every, Pick.of, List.map_const', positions_length]

theorem Pick.none_eq (change : Change) :
    Pick.none change = .of change (fun _ => false) fun _ => false := by
  simp [Pick.none, Pick.of, List.map_const', positions_length]

theorem Pick.any_of {change : Change} {removed added : Nat → Bool} :
    (Pick.of change removed added).any = true ↔
      (∃ line ∈ change.before.positions, removed line = true) ∨
        ∃ line ∈ change.after.positions, added line = true := by
  simp [Pick.any, Pick.of, List.any_append]

/-- A pick without a picked line picks nothing. -/
theorem Pick.of_eq_none {change : Change} {removed added : Nat → Bool}
    (nothing : (Pick.of change removed added).any = false) :
    Pick.of change removed added = Pick.none change := by
  have clear := mt Pick.any_of.mpr (by simpa using nothing)
  simp only [not_or, not_exists, not_and, Bool.not_eq_true] at clear
  rw [Pick.none_eq, Pick.of, Pick.of, List.map_congr_left clear.1, List.map_congr_left clear.2]

@[simp] theorem pickedLines_map (picked : Bool) (range : Range) (test : Nat → Bool) :
    HunkReview.pickedLines picked range (range.positions.map test) =
      range.positions.filter fun line => test line == picked := by
  unfold HunkReview.pickedLines
  generalize range.positions = lines
  induction lines with
  | nil => rfl
  | cons line lines ih =>
    rw [List.map_cons, List.zip_cons_cons, List.filterMap_cons, List.filter_cons, ih]
    by_cases same : test line = picked <;> simp [same]

theorem pickedLines_replicate (picked flag : Bool) (range : Range) :
    HunkReview.pickedLines picked range (List.replicate range.size flag) =
      if flag = picked then range.positions else [] := by
  have flags : List.replicate range.size flag = range.positions.map fun _ => flag := by
    rw [List.map_const', positions_length]
  rw [flags, pickedLines_map]
  by_cases same : flag = picked <;> simp [same]

theorem flag_of_mem_pickedLines {picked : Bool} {range : Range} {flags : List Bool} {line : Nat}
    (mem : line ∈ HunkReview.pickedLines picked range flags) : picked ∈ flags := by
  obtain ⟨entry, inside, found⟩ := List.mem_filterMap.mp mem
  split_ifs at found with same
  exact same ▸ (List.of_mem_zip inside).2

/-- What a check expects of the unpicked lines, read off them. -/
theorem filterMap_unpicked {β : Type} (find : Nat → Option β) (range : Range) (flags : List Bool) :
    ((range.positions.zip flags).filterMap fun line => if line.2 then none else find line.1) =
      (HunkReview.pickedLines false range flags).filterMap find := by
  unfold HunkReview.pickedLines
  rw [List.filterMap_filterMap]
  refine List.filterMap_congr fun line _ => ?_
  cases line.2 <;> rfl

/-! The last change decides whether written lines run together. -/

theorem getLast?_choices {changes : List Change} {picks : List Pick}
    (same : picks.length = changes.length) (choice : Change × Pick → Choice) :
    ((changes.zip picks).map choice).getLast? =
      changes[changes.length - 1]?.bind fun change =>
        picks[changes.length - 1]?.map fun pick => choice (change, pick) := by
  rw [List.getLast?_eq_getElem?, List.length_map, List.length_zip, same, Nat.min_self,
    List.getElem?_map, List.zip, List.getElem?_zipWith]
  cases changes[changes.length - 1]? with
  | none => rfl
  | some change => cases picks[changes.length - 1]? <;> rfl

/-- Settled picks run two lines together when the given ones do and the last hunk is not
widened: a change taken whole leaves no line in front of another one. -/
theorem glues_settled_iff {changes : List Change} {picks : List Pick}
    (same : picks.length = changes.length) {choice : Change × Pick → Choice}
    (whole : ∀ change, (choice (change, Pick.every change)).stay = [] ∨
      (choice (change, Pick.every change)).come = [])
    (wide : List Extent) (lines : Lines) :
    Glues isNewline lines ((changes.zip (widenAll changes wide picks)).map choice) ↔
      Glues isNewline lines ((changes.zip picks).map choice) ∧
        ∀ hunk ∈ wide, hunk.holds (changes.length - 1) = false := by
  unfold Glues
  rw [getLast?_choices (by rw [widenAll_length, same]), getLast?_choices same,
    widenAll_getElem? same]
  by_cases last : ∃ hunk ∈ wide, hunk.holds (changes.length - 1) = true
  · rw [if_pos last]
    constructor
    · rintro ⟨c, found, come, stay, -⟩
      obtain ⟨change, isLast, found⟩ := Option.bind_eq_some_iff.mp found
      rw [isLast, Option.map_some, Option.map_some, Option.some.injEq] at found
      subst found
      rcases whole change with empty | empty
      · rw [empty] at stay
        exact absurd stay List.not_mem_nil
      · exact absurd empty come
    · rintro ⟨-, clear⟩
      obtain ⟨hunk, mem, holds⟩ := last
      rw [clear hunk mem] at holds
      cases holds
  · rw [if_neg last, iff_self_and]
    intro _ hunk mem
    by_contra holds
    exact last ⟨hunk, mem, by simpa using holds⟩

end ProgressiveReviewer.Hunks
