import ProgressiveReviewer.Hunks.Picked

/-! Reopening lines reopens what was picked (`review-hunks/src/lines.rs`, `reopen_lines`).
The finished version has, at each reviewed change, the picked base lines followed by the
added lines that were not picked. A hunk of reviewed changes whose rest cannot be told
apart is reopened whole, changes without a selected line included. -/

namespace ProgressiveReviewer.Hunks

open Library Library.Extent

/-- The differ sets the lines that two versions end with aside: a last line without a
newline that both have is in no change. -/
def Differ.SharesBareEnd (d : Differ) : Prop :=
  ∀ before after line, (Lines.new before).getLast? = some line →
    (Lines.new after).getLast? = some line → Unterminated isNewline line →
      ∀ change ∈ d.changes before after, change.before.stop < (Lines.new before).length

theorem trimmedDiffer_sharesBareEnd : trimmedDiffer.SharesBareEnd := by
  intro before after line endBefore endAfter bare change mem
  simp only [trimmedDiffer, trimmedEdits] at mem
  split_ifs at mem with same
  · cases mem
  obtain rfl := List.mem_singleton.mp mem
  have start := commonStart_le (Lines.new before) (Lines.new after)
  have heads := take_commonStart (Lines.new before) (Lines.new after)
  generalize commonStart (Lines.new before) (Lines.new after) = first at *
  -- neither version is all common start: the bare line would be the last of both
  have short : first < (Lines.new before).length ∧ first < (Lines.new after).length := by
    by_contra all
    have get : ∀ n, n < first → (Lines.new before)[n]? = (Lines.new after)[n]? := by
      intro n less
      rw [← List.getElem?_take_of_lt less, heads, List.getElem?_take_of_lt less]
    rw [List.getLast?_eq_getElem?] at endBefore endAfter
    have ends := (List.getElem?_eq_some_iff.mp endBefore).1
    have ends' := (List.getElem?_eq_some_iff.mp endAfter).1
    have lengths : (Lines.new before).length = (Lines.new after).length := by
      rcases Nat.lt_or_ge first (Lines.new before).length with less | whole
      · have at_ := get ((Lines.new after).length - 1) (by omega)
        have := (Lines.lineList_new before).index_of_bare (at_.trans endAfter) bare
        omega
      · have at_ := get ((Lines.new before).length - 1) (by omega)
        have := (Lines.lineList_new after).index_of_bare (at_.symm.trans endBefore) bare
        omega
    apply same
    rw [← List.take_of_length_le (show (Lines.new before).length ≤ first by omega), heads,
      List.take_of_length_le (by omega)]
  have last : ∀ text, (Lines.new text).getLast? = some line → first < (Lines.new text).length →
      ∃ rest, ((Lines.new text).drop first).reverse = line :: rest := by
    intro text ends less
    have ends' : ((Lines.new text).drop first).getLast? = some line := by
      rw [List.getLast?_drop, if_neg (by omega), ends]
    obtain ⟨rest, eq⟩ := List.getLast?_eq_some_iff.mp ends'
    exact ⟨rest.reverse, by rw [eq, List.reverse_concat]⟩
  obtain ⟨rest, eq⟩ := last before endBefore short.1
  obtain ⟨rest', eq'⟩ := last after endAfter short.2
  rw [commonEnd, eq, eq', commonStart, if_pos rfl]
  dsimp only
  omega

namespace HunkReview

variable (d : Differ) (review : HunkReview) (selection : LineSelection)

/-- The selection names a line of a reviewed change: a base line it removes, or a line it
adds by its number in the current file. -/
def NamesReviewed (change : Change) : Prop :=
  (∃ line ∈ change.before.positions, line ∈ selection.removed) ∨
  ∃ line ∈ change.after.positions, ∃ now,
    afterLine (d.changes review.reviewed review.current) line = some now ∧ now ∈ selection.added

/-- The selection names no reviewed line. -/
def NamesNoneReviewed : Prop :=
  Disjoint selection.removed (reviewedLinesOf d review.base review.reviewed review.current).removed ∧
    Disjoint selection.added (reviewedLinesOf d review.base review.reviewed review.current).added

/-- The hunks of reviewed changes that are reopened whole. -/
def reopenWidened : List Extent :=
  widened (d.changes review.base review.reviewed) (review.reopenPicks d selection)
    (review.reopenMatches d)

/-- The version is the one before with exactly the lines `settled` picks back as the base
has them, and `settled` is what the selection names, with hunks that cannot be told apart
whole. -/
structure ReopensLines (settled : List Pick) (version : ReviewedVersion) : Prop where
  length : settled.length = (d.changes review.base review.reviewed).length
  /-- Every selected reviewed line is as the base has it. -/
  removed : ∀ entry ∈ (d.changes review.base review.reviewed).zip settled,
    ∀ line ∈ entry.1.before.positions, line ∈ selection.removed →
      line ∈ pickedLines true entry.1.before entry.2.removed
  added : ∀ entry ∈ (d.changes review.base review.reviewed).zip settled,
    ∀ line ∈ entry.1.after.positions, ∀ now,
      afterLine (d.changes review.reviewed review.current) line = some now →
        now ∈ selection.added → line ∈ pickedLines true entry.1.after entry.2.added
  /-- A hunk without a selected line stays reviewed. -/
  untouched : ∀ hunk ∈ Hunks.hunks (d.changes review.base review.reviewed),
    (∀ change ∈ hunk.cut (d.changes review.base review.reviewed),
      ¬ review.NamesReviewed d selection change) →
    hunk.cut settled = (hunk.cut (d.changes review.base review.reviewed)).map Pick.none
  /-- A hunk ends as the unpicked rest, or wholly reopened when that cannot be told apart. -/
  asPicked : ∀ hunk ∈ Hunks.hunks (d.changes review.base review.reviewed),
    hunk ∉ review.reopenWidened d selection →
      hunk.cut settled = hunk.cut (review.reopenPicks d selection)
  whole : ∀ hunk ∈ review.reopenWidened d selection,
    hunk.cut settled = (hunk.cut (d.changes review.base review.reviewed)).map Pick.every
  /-- Each change has its picked base lines, then its unpicked added lines. -/
  lines : Lines.new (review.textOf version) =
    merge (Lines.new review.base) (Lines.new review.reviewed) 0
      (((d.changes review.base review.reviewed).zip settled).map reopenChoice)
  /-- What stays reviewed keeps its authors. -/
  authors : review.Keeps d .reviewer
    (review.reopenSplice 0 ((d.changes review.base review.reviewed).zip settled)) version
  /-- Unless a hunk was widened, exactly the reviewed lines that were not selected stay. -/
  rest : review.reopenWidened d selection = [] →
    reviewedLinesOf d review.base (review.textOf version) review.current =
      (reviewedLinesOf d review.base review.reviewed review.current).difference selection

/-- Reopening lines reopens what was picked, in whole hunks where it has to. -/
def ReopensPicked : Prop :=
  (review.reopenLines d selection = none ↔ review.NamesNoneReviewed d selection) ∧
    ∀ version, review.reopenLines d selection = some version →
      ∃ settled, review.ReopensLines d selection settled version

/-! What the selection picks. -/

/-- The pick that a selection makes of one reviewed change. -/
def reopenPick (change : Change) : Pick :=
  .of change (· ∈ selection.removed) fun line =>
    (afterLine (d.changes review.reviewed review.current) line).any (· ∈ selection.added)

theorem reopenPicks_eq : review.reopenPicks d selection =
    (d.changes review.base review.reviewed).map (review.reopenPick d selection) := rfl

@[simp] theorem reopenPicks_length : (review.reopenPicks d selection).length =
    (d.changes review.base review.reviewed).length := by
  rw [reopenPicks_eq, List.length_map]

variable {d review selection}

theorem mem_reopened_removed {change : Change} {line : Nat} (mem : line ∈ change.before.positions)
    (picked : Bool) :
    line ∈ pickedLines picked change.before (review.reopenPick d selection change).removed ↔
      (line ∈ selection.removed ↔ picked = true) := by
  rw [reopenPick, Pick.of, pickedLines_map, List.mem_filter]
  by_cases inside : line ∈ selection.removed <;> cases picked <;> simp_all

theorem mem_reopened_added {change : Change} {line : Nat} (mem : line ∈ change.after.positions)
    (picked : Bool) :
    line ∈ pickedLines picked change.after (review.reopenPick d selection change).added ↔
      ((∃ now, afterLine (d.changes review.reviewed review.current) line = some now ∧
        now ∈ selection.added) ↔ picked = true) := by
  rw [reopenPick, Pick.of, pickedLines_map, List.mem_filter]
  cases afterLine (d.changes review.reviewed review.current) line with
  | none => cases picked <;> simp_all
  | some now => by_cases inside : now ∈ selection.added <;> cases picked <;> simp_all

/-- A change has picked lines exactly when the selection names one of its lines. -/
theorem reopenPick_any (change : Change) :
    (review.reopenPick d selection change).any = true ↔ review.NamesReviewed d selection change := by
  rw [reopenPick, Pick.any_of]
  simp only [decide_eq_true_eq, Option.any_eq_true, NamesReviewed]

theorem reopenPick_none {change : Change} (unnamed : ¬ review.NamesReviewed d selection change) :
    review.reopenPick d selection change = Pick.none change :=
  Pick.of_eq_none (by rwa [← reopenPick, ← Bool.not_eq_true, reopenPick_any])

theorem reopenPicks_any : (review.reopenPicks d selection).any Pick.any = true ↔
    ¬ review.NamesNoneReviewed d selection := by
  rw [reopenPicks_eq, List.any_map, List.any_eq_true]
  simp only [Function.comp_apply, reopenPick_any, NamesNoneReviewed, Finset.disjoint_left,
    reviewedLinesOf, List.mem_toFinset, List.mem_filterMap, List.mem_flatMap, NamesReviewed]
  constructor
  · rintro ⟨change, mem, ⟨line, own, inside⟩ | ⟨line, own, now, found, inside⟩⟩ ⟨removed, added⟩
    · exact removed inside ⟨change, mem, own⟩
    · exact added inside ⟨line, ⟨change, mem, own⟩, found⟩
  · intro named
    by_contra unnamed
    push Not at unnamed
    refine named ⟨?_, ?_⟩
    · rintro line inside ⟨change, mem, own⟩
      exact (unnamed change mem).1 line own inside
    · rintro now inside ⟨line, ⟨change, mem, own⟩, found⟩
      exact (unnamed change mem).2 line own now found inside

/-! What reopening writes. -/

variable (d review selection)

/-- The settled picks of a selection. -/
def reopenSettled : List Pick :=
  widenAll (d.changes review.base review.reviewed) (review.reopenWidened d selection)
    (review.reopenPicks d selection)

variable {d review selection}

@[simp] theorem reopenSettled_length : (review.reopenSettled d selection).length =
    (d.changes review.base review.reviewed).length := by
  rw [reopenSettled, widenAll_length, reopenPicks_length]

theorem reopenLines_eq (valid : d.Valid) : review.reopenLines d selection =
    if (review.reopenPicks d selection).any Pick.any then
      some (review.version (review.spliced d .reviewer (review.reopenSplice 0
        ((d.changes review.base review.reviewed).zip (review.reopenSettled d selection)))))
    else none := by
  have built := review.reopenBuild_eq valid .reviewer (@reopenSettled_length d review selection)
  rw [reopenLines, settle_eq (review.reopenPicks_length d selection)]
  rw [reopenSettled, reopenWidened] at built ⊢
  split_ifs with any
  · rw [Option.bind_eq_bind, Option.bind_some, built]
    rfl
  · rfl

/-- The check of reopened lines compares the reviewed lines with the unpicked ones. -/
theorem reopenMatches_iff (valid : d.Valid) {picks : List Pick}
    (same : picks.length = (d.changes review.base review.reviewed).length) :
    review.reopenMatches d picks = true ↔
      reviewedLinesOf d review.base (review.spliced d .reviewer (review.reopenSplice 0
          ((d.changes review.base review.reviewed).zip picks))).text review.current =
        { removed := (((d.changes review.base review.reviewed).zip picks).flatMap fun entry =>
            pickedLines false entry.1.before entry.2.removed).toFinset
          added := (((d.changes review.base review.reviewed).zip picks).flatMap fun entry =>
            (pickedLines false entry.1.after entry.2.added).filterMap
              (afterLine (d.changes review.reviewed review.current))).toFinset } := by
  simp only [reopenMatches, review.reopenBuild_eq valid .reviewer same, Option.any_some,
    decide_eq_true_eq, filterMap_unpicked, List.filterMap_some]

/-- What the selection leaves unpicked is what it does not name. -/
theorem unreopened_eq_difference :
    (⟨(((d.changes review.base review.reviewed).zip (review.reopenPicks d selection)).flatMap
        fun entry => pickedLines false entry.1.before entry.2.removed).toFinset,
      (((d.changes review.base review.reviewed).zip (review.reopenPicks d selection)).flatMap
        fun entry => (pickedLines false entry.1.after entry.2.added).filterMap
          (afterLine (d.changes review.reviewed review.current))).toFinset⟩ : LineSelection) =
      (reviewedLinesOf d review.base review.reviewed review.current).difference selection := by
  rw [reopenPicks_eq, ← List.map_prod_left_eq_zip, List.flatMap_map, List.flatMap_map]
  unfold LineSelection.difference reviewedLinesOf
  congr 1
  · ext line
    simp only [List.mem_toFinset, List.mem_flatMap, Finset.mem_sdiff]
    constructor
    · rintro ⟨change, mem, unpicked⟩
      have own := (pickedLines_sublist _ _ _).subset unpicked
      refine ⟨⟨change, mem, own⟩, fun inside => ?_⟩
      simpa [inside] using (mem_reopened_removed own false).mp unpicked
    · rintro ⟨⟨change, mem, own⟩, outside⟩
      exact ⟨change, mem, (mem_reopened_removed own false).mpr (by simp [outside])⟩
  · ext now
    simp only [List.mem_toFinset, List.mem_flatMap, List.mem_filterMap, Finset.mem_sdiff]
    constructor
    · rintro ⟨change, mem, line, unpicked, found⟩
      have own := (pickedLines_sublist _ _ _).subset unpicked
      refine ⟨⟨line, ⟨change, mem, own⟩, found⟩, fun inside => ?_⟩
      have apart := (mem_reopened_added own false).mp unpicked
      simp [found, inside] at apart
    · rintro ⟨⟨line, ⟨change, mem, own⟩, found⟩, outside⟩
      exact ⟨change, mem, line, (mem_reopened_added own false).mpr (by simp [found, outside]), found⟩

/-! The last base line is not taken back in front of a kept line: it would not come out as
reopened, and the change would be reopened whole. -/

theorem reopenChoice_every (change : Change) :
    (reopenChoice (change, Pick.every change)).come = [] := by
  simp [reopenChoice, Pick.every, pickedLines_replicate]

theorem reopenChoices_fit (entries : List (Change × Pick)) :
    ∀ c ∈ entries.map reopenChoice, c.Fits := by
  intro c mem
  obtain ⟨entry, _, rfl⟩ := List.mem_map.mp mem
  exact ⟨pickedLines_sublist _ _ _, pickedLines_sublist _ _ _⟩

theorem reopenChoices_script (valid : d.Valid) {picks : List Pick}
    (same : picks.length = (d.changes review.base review.reviewed).length) :
    ScriptFrom (Lines.new review.base) (Lines.new review.reviewed) 0 0 0
      ((((d.changes review.base review.reviewed).zip picks).map reopenChoice).map Choice.edit) := by
  have edits : (((d.changes review.base review.reviewed).zip picks).map reopenChoice).map
      Choice.edit = d.changes review.base review.reviewed := by
    rw [List.map_map]
    exact zip_changes same
  rw [edits]
  exact valid review.base review.reviewed

/-- A last base line that a check finds reopened is a line of the finished text. -/
theorem last_base_line_written (valid : d.Valid) {picks : List Pick}
    (same : picks.length = (d.changes review.base review.reviewed).length)
    (comes : review.reopenMatches d picks = true) {change : Change} {pick : Pick} {index : Nat}
    (isChange : (d.changes review.base review.reviewed)[index]? = some change)
    (isPick : picks[index]? = some pick) {line : Nat} {removed added : Nat → Bool}
    (tests : pick = .of change removed added)
    (picked : line ∈ pickedLines true change.before pick.removed) :
    ∃ k : Nat, (Lines.new (review.spliced d .reviewer (review.reopenSplice 0
      ((d.changes review.base review.reviewed).zip picks))).text)[k]? =
        (Lines.new review.base)[line]? := by
  have script := valid review.base (review.spliced d .reviewer (review.reopenSplice 0
    ((d.changes review.base review.reviewed).zip picks))).text
  have own := (pickedLines_sublist _ _ _).subset picked
  have expected := congrArg LineSelection.removed ((reopenMatches_iff valid same).mp comes)
  rcases mapLineFrom_spec script (Nat.zero_le line) with ⟨edit, mem, holds, -⟩ | ⟨-, k, placed, -⟩
  · -- a change that removes the line again would leave it unpicked
    have gone : line ∈ (reviewedLinesOf d review.base (review.spliced d .reviewer
        (review.reopenSplice 0 ((d.changes review.base review.reviewed).zip picks))).text
          review.current).removed :=
      List.mem_toFinset.mpr (List.mem_flatMap.mpr
        ⟨edit, mem, (mem_positions _ _).mpr ((holds_iff _ _).mp holds)⟩)
    rw [expected, List.mem_toFinset, List.mem_flatMap] at gone
    obtain ⟨entry, mem', unpicked⟩ := gone
    have own' := (pickedLines_sublist _ _ _).subset unpicked
    obtain ⟨index', get⟩ := List.mem_iff_getElem?.mp mem'
    rw [List.getElem?_zip_eq_some] at get
    have here : index' = index := by
      have bounds := (mem_positions _ _).mp own
      have bounds' := (mem_positions _ _).mp own'
      have order := List.pairwise_iff_getElem.mp (valid review.base review.reviewed).pairwise
      obtain ⟨lt, at_⟩ := List.getElem?_eq_some_iff.mp isChange
      obtain ⟨lt', at'⟩ := List.getElem?_eq_some_iff.mp get.1
      rcases Nat.lt_trichotomy index' index with less | same_index | more
      · have := order index' index lt' lt less
        rw [at_, at'] at this
        omega
      · exact same_index
      · have := order index index' lt lt' more
        rw [at_, at'] at this
        omega
    rw [here, isChange, isPick] at get
    rw [← Option.some.inj get.1, ← Option.some.inj get.2, tests, Pick.of, pickedLines_map,
      List.mem_filter] at unpicked
    rw [tests, Pick.of, pickedLines_map, List.mem_filter] at picked
    simp_all
  · exact ⟨k, (getElem?_of_placed script placed).symm⟩

/-- Picks that come out as picked do not run two lines together. -/
theorem not_glues_of_matches (valid : d.Valid) (shares : d.SharesBareEnd) {picks : List Pick}
    (same : picks.length = (d.changes review.base review.reviewed).length)
    (comes : review.reopenMatches d picks = true) {change : Change} {removed added : Nat → Bool}
    (isChange : (d.changes review.base review.reviewed)[
      (d.changes review.base review.reviewed).length - 1]? = some change)
    (isPick : picks[(d.changes review.base review.reviewed).length - 1]? =
      some (.of change removed added)) :
    ¬ Glues isNewline (Lines.new review.base)
      (((d.changes review.base review.reviewed).zip picks).map reopenChoice) := by
  intro glues
  have script := @reopenChoices_script d review valid _ same
  obtain ⟨c, front, bare, next, back, last, ends, un, comeLines, texts⟩ :=
    splitInclusive_of_glues script (reopenChoices_fit _) (Lines.lineList_new _)
      (Lines.lineList_new _) glues
  obtain ⟨c', last', come, stay, -⟩ := glues
  obtain rfl := Option.some.inj (last'.symm.trans last)
  rw [getLast?_choices same, isChange, Option.bind_some, isPick, Option.map_some,
    Option.some.injEq] at last
  subst last
  obtain ⟨k, written⟩ := last_base_line_written valid same comes isChange isPick rfl stay
  rw [← List.getLast?_eq_getElem?, ends, spliced_text, reopenSplice, reopenWritten_text script,
    Lines.new, texts] at written
  have listed : LineList isNewline (front ++ (bare ++ next) :: back) := by
    rw [← texts]
    exact lineList_splitInclusive _
  have isLast := listed.getLast?_of_mem (List.mem_of_getElem? written) un
  rw [List.getLast?_append_of_ne_nil _ (List.cons_ne_nil _ _)] at isLast
  have put : ∀ line ∈ next :: back, line ∈ Lines.new review.reviewed := by
    intro line mem
    rw [← comeLines] at mem
    obtain ⟨n, -, get⟩ := mem_elements.mp mem
    exact List.mem_of_getElem? get
  cases back with
  | nil =>
    -- the glued line is longer than the base's last one
    rw [List.getLast?_singleton, Option.some.injEq, List.append_right_eq_self] at isLast
    exact (Lines.lineList_new review.reviewed).ne_nil (put next List.mem_cons_self) isLast
  | cons line back =>
    -- the reviewed version ends with the base's last line, which the change then leaves alone
    rw [List.getLast?_cons_cons] at isLast
    have inside := put _ (List.mem_cons_of_mem _ (List.mem_of_getLast? isLast))
    have reviewed_ends := (Lines.lineList_new review.reviewed).getLast?_of_mem inside un
    have apart := shares review.base review.reviewed bare ends reviewed_ends un change
      (List.mem_of_getElem? isChange)
    have own := (mem_positions _ _).mp ((pickedLines_sublist _ _ _).subset stay)
    dsimp only at own
    omega

/-- Reopening never runs two lines together. -/
theorem reopens_apart (valid : d.Valid) (shares : d.SharesBareEnd) :
    ¬ Glues isNewline (Lines.new review.base)
      (((d.changes review.base review.reviewed).zip (review.reopenSettled d selection)).map
        reopenChoice) := by
  have same := review.reopenPicks_length d selection
  rw [reopenSettled, glues_settled_iff same fun change => Or.inr (reopenChoice_every change)]
  rintro ⟨⟨c, last, come, stay, bare⟩, narrow⟩
  have last' := last
  rw [getLast?_choices same, Option.bind_eq_some_iff] at last
  obtain ⟨change, isChange, last⟩ := last
  have isPick : (review.reopenPicks d selection)[
      (d.changes review.base review.reviewed).length - 1]? =
        some (review.reopenPick d selection change) := by
    rw [reopenPicks_eq, List.getElem?_map, isChange, Option.map_some]
  rw [isPick, Option.map_some, Option.some.injEq] at last
  subst last
  obtain ⟨hunk, mem, holds⟩ := exists_hunk (List.getElem?_eq_some_iff.mp isChange).1
  have picked : (review.reopenPick d selection change).any = true :=
    List.any_eq_true.mpr ⟨true, List.mem_append_left _ (flag_of_mem_pickedLines stay), rfl⟩
  -- the hunk is not widened, so its picks come out by themselves
  have comes : review.reopenMatches d (alone (d.changes review.base review.reviewed)
      (review.reopenPicks d selection) hunk) = true := by
    by_contra fails
    have wide : hunk ∈ review.reopenWidened d selection :=
      mem_widened.mpr ⟨mem, touches_of_any isPick picked holds, Or.inl (by simpa using fails)⟩
    rw [narrow hunk wide] at holds
    cases holds
  have isPick' := (alone_getElem? same holds).trans isPick
  refine not_glues_of_matches valid shares (alone_length same hunk) comes isChange isPick'
    ⟨_, ?_, come, stay, bare⟩
  rw [getLast?_choices (alone_length same hunk), isChange, Option.bind_some, isPick',
    Option.map_some]

/-! The claim. -/

/-- The settled picks follow the selection, hunk by hunk. -/
theorem reopenSettled_follows (valid : d.Valid) (shares : d.SharesBareEnd)
    (canonical : review.attribution.Canonical)
    (any : (review.reopenPicks d selection).any Pick.any = true) :
    review.ReopensLines d selection (review.reopenSettled d selection)
      (review.version (review.spliced d .reviewer (review.reopenSplice 0
        ((d.changes review.base review.reviewed).zip (review.reopenSettled d selection))))) := by
  have same := review.reopenPicks_length d selection
  have script := @reopenChoices_script d review valid _
    (@reopenSettled_length d review selection)
  have own_lines : review.WritesLines (review.reopenSplice 0
      ((d.changes review.base review.reviewed).zip (review.reopenSettled d selection))) :=
    (writesLines_reopenSplice_iff (valid review.base review.reviewed) reopenSettled_length).mpr
      (reopens_apart valid shares)
  have settled : ∀ entry ∈ (d.changes review.base review.reviewed).zip
      (review.reopenSettled d selection),
      entry.2 = review.reopenPick d selection entry.1 ∨ entry.2 = Pick.every entry.1 :=
    fun entry mem => pick_settled mem
  refine ⟨reopenSettled_length, ?_, ?_, ?_, ?_, ?_, ?_, ?_, ?_⟩
  · intro entry mem line own inside
    rcases settled entry mem with picked | every
    · rw [picked, mem_reopened_removed own]
      simp [inside]
    · simpa [every, Pick.every, pickedLines_replicate] using own
  · intro entry mem line own now found inside
    rcases settled entry mem with picked | every
    · rw [picked, mem_reopened_added own]
      simp [found, inside]
    · simpa [every, Pick.every, pickedLines_replicate] using own
  · intro hunk mem unnamed
    have clear : hunk.cut (review.reopenPicks d selection) =
        (hunk.cut (d.changes review.base review.reviewed)).map Pick.none := by
      rw [reopenPicks_eq, cut_map]
      exact List.map_congr_left fun change inside => reopenPick_none (unnamed change inside)
    exact (cut_untouched same mem clear).trans clear
  · intro hunk mem narrow
    rcases cut_settled same mem with ⟨wide, -⟩ | ⟨-, kept⟩
    · exact absurd wide narrow
    · exact kept
  · intro hunk wide
    rcases cut_settled same (mem_widened.mp wide).1 with ⟨-, every⟩ | ⟨narrow, -⟩
    · exact every
    · exact absurd wide narrow
  · rw [textOf_version, spliced_text, reopenSplice, reopenWritten_text script]
    rw [WritesLines, reopenSplice, reopenWritten_text script] at own_lines
    exact splitInclusive_flatten own_lines
  · exact (keeps_spliced_iff valid canonical (fresh_reopenSplice 0 _)).mpr own_lines
  · intro narrow
    have kept : review.reopenSettled d selection = review.reopenPicks d selection := by
      rw [reopenSettled, narrow]
      rfl
    have comes := matches_of_widened_nil same any narrow
    rw [textOf_version, kept, (reopenMatches_iff valid same).mp comes, unreopened_eq_difference]

end HunkReview

/-- Reopening lines takes exactly the selected reviewed lines back to what the base has, or
the whole hunks of those that cannot be told apart; what stays reviewed keeps its authors. -/
theorem reopens_picked {d : Differ} (valid : d.Valid) (shares : d.SharesBareEnd)
    (review : HunkReview) (canonical : review.attribution.Canonical) (selection : LineSelection) :
    review.ReopensPicked d selection := by
  have eq := @HunkReview.reopenLines_eq d review selection valid
  refine ⟨?_, fun version found => ?_⟩
  · rw [eq]
    split_ifs with any
    · simpa using HunkReview.reopenPicks_any.mp any
    · simpa using not_imp_comm.mp HunkReview.reopenPicks_any.mpr any
  · rw [eq] at found
    split_ifs at found with any
    obtain rfl := Option.some.inj found
    exact ⟨_, review.reopenSettled_follows valid shares canonical any⟩

/-- Every selected removal of a base line is open afterwards. -/
def HunkReview.OpensNamed (d : Differ) (review : HunkReview) (selection : LineSelection) : Prop :=
  ∀ version, review.reopenLines d selection = some version →
    ∀ line ∈ selection.removed,
      line ∈ (reviewedLinesOf d review.base review.reviewed review.current).removed →
        line ∈ (openLines d review.base (review.textOf version) review.current).removed

/-- Every reviewed change without a selected line stays reviewed. -/
def HunkReview.KeepsUnnamed (d : Differ) (review : HunkReview) (selection : LineSelection) : Prop :=
  ∀ version, review.reopenLines d selection = some version →
    ∀ change ∈ d.changes review.base review.reviewed, ¬ review.NamesReviewed d selection change →
      ∀ line ∈ change.before.positions,
        line ∈ (reviewedLinesOf d review.base (review.textOf version) review.current).removed

/-- A file "a b c" whose removal of "b" was reviewed and then taken back. -/
def takenBack : HunkReview where
  base := [97, 10, 98, 10, 99, 10]
  reviewed := [97, 10, 99, 10]
  current := [97, 10, 98, 10, 99, 10]
  attribution := .reviewerOnly

/-- A file "m b" that starts with three equal lines "x" and has "c" for "b", all reviewed. -/
def threeEqual : HunkReview where
  base := [109, 10, 98, 10]
  reviewed := [120, 10, 120, 10, 120, 10, 109, 10, 99, 10]
  current := [120, 10, 120, 10, 120, 10, 109, 10, 99, 10]
  attribution := .reviewerOnly

/-- The edits the line differ reports for these versions, and for the reviewed version with
one "x" less. -/
def threeEqualDiffer : Differ := tableDiffer [
  ((threeEqual.base, threeEqual.reviewed), [⟨⟨0, 0⟩, ⟨0, 3⟩⟩, ⟨⟨1, 2⟩, ⟨4, 5⟩⟩]),
  ((threeEqual.base, [120, 10, 120, 10, 109, 10, 99, 10]),
    [⟨⟨0, 0⟩, ⟨0, 2⟩⟩, ⟨⟨1, 2⟩, ⟨3, 4⟩⟩])]

theorem threeEqualDiffer_valid : threeEqualDiffer.Valid := tableDiffer_valid (by decide)

/-- A removal that the current file took back is not open once it is reopened; and of three
equal lines the middle one cannot be reopened alone, so the change below them, in the same
hunk, is reopened with them. -/
theorem reopens_unnamed_change :
    ¬ takenBack.OpensNamed trimmedDiffer ⟨{1}, ∅⟩ ∧
      threeEqualDiffer.Valid ∧ ¬ threeEqual.KeepsUnnamed threeEqualDiffer ⟨∅, {1}⟩ := by
  refine ⟨fun opens => ?_, threeEqualDiffer_valid, fun keeps => ?_⟩
  · have done : takenBack.reopenLines trimmedDiffer ⟨{1}, ∅⟩ = some (.current .reviewerOnly) := by
      decide
    exact absurd (opens _ done 1 (by decide) (by decide)) (by decide)
  · have done : threeEqual.reopenLines threeEqualDiffer ⟨∅, {1}⟩ = some .base := by decide
    have unnamed : ¬ threeEqual.NamesReviewed threeEqualDiffer ⟨∅, {1}⟩ ⟨⟨1, 2⟩, ⟨4, 5⟩⟩ := by
      rintro (⟨line, -, mem⟩ | ⟨line, mem, now, found, named⟩)
      · exact absurd mem (by simp)
      · obtain rfl : line = 4 := by simpa [positions] using mem
        have at_ : afterLine (threeEqualDiffer.changes threeEqual.reviewed threeEqual.current) 4 =
            some 4 := by decide
        obtain rfl := Option.some.inj (found.symm.trans at_)
        exact absurd named (by decide)
    exact absurd (keeps _ done ⟨⟨1, 2⟩, ⟨4, 5⟩⟩ (by decide) unnamed 1 (by decide)) (by decide)

/-- Reopening a reviewed removal takes the line back. -/
theorem reopens_taken_back : takenBack.ReopensPicked trimmedDiffer ⟨{1}, ∅⟩ :=
  reopens_picked trimmedDiffer_valid trimmedDiffer_sharesBareEnd takenBack
    (Attribution.canonical_uniform .reviewer) ⟨{1}, ∅⟩

end ProgressiveReviewer.Hunks
