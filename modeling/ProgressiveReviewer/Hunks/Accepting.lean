import ProgressiveReviewer.Hunks.Picked

/-! Accepting lines accepts what was picked (`review-hunks/src/lines.rs`, `accept_lines`).
The finished version has, at each open change, the reviewed lines that were not picked
followed by the current lines that were, one line each, unless an unterminated last
reviewed line stays in front of a picked one. -/

namespace ProgressiveReviewer.Hunks

open Library Library.Extent

namespace HunkReview

variable (d : Differ) (review : HunkReview) (selection : LineSelection) (author : MarkAuthor)

/-- The selection names a line of an open change: the base line behind a reviewed line it
removes, or a current line it adds. -/
def NamesOpen (change : Change) : Prop :=
  (∃ line ∈ change.before.positions, ∃ base,
    beforeLine (d.changes review.base review.reviewed) line = some base ∧ base ∈ selection.removed) ∨
  ∃ line ∈ change.after.positions, line ∈ selection.added

/-- The selection names no line of an open change. -/
def NamesNoneOpen : Prop :=
  Disjoint selection.removed (openLines d review.base review.reviewed review.current).removed ∧
    Disjoint selection.added (openLines d review.base review.reviewed review.current).added

/-- The hunks of the open diff that are accepted whole: touched ones whose picks cannot be
told apart, by themselves or together with those of the other touched hunks. -/
def acceptWidened : List Extent :=
  widened (d.changes review.reviewed review.current) (review.acceptPicks d selection)
    (review.acceptMatches d author)

/-- The text is the reviewed version with exactly the lines `settled` picks accepted, and
`settled` is what the selection names, with hunks that cannot be told apart whole. -/
structure AcceptsLines (settled : List Pick) (text : Bytes) : Prop where
  length : settled.length = (d.changes review.reviewed review.current).length
  /-- Every selected open line is accepted. -/
  removed : ∀ entry ∈ (d.changes review.reviewed review.current).zip settled,
    ∀ line ∈ entry.1.before.positions, ∀ base,
      beforeLine (d.changes review.base review.reviewed) line = some base → base ∈ selection.removed →
        line ∈ pickedLines true entry.1.before entry.2.removed
  added : ∀ entry ∈ (d.changes review.reviewed review.current).zip settled,
    ∀ line ∈ entry.1.after.positions, line ∈ selection.added →
      line ∈ pickedLines true entry.1.after entry.2.added
  /-- A hunk without a selected line keeps its reviewed lines. -/
  untouched : ∀ hunk ∈ Hunks.hunks (d.changes review.reviewed review.current),
    (∀ change ∈ hunk.cut (d.changes review.reviewed review.current),
      ¬ review.NamesOpen d selection change) →
    hunk.cut settled = (hunk.cut (d.changes review.reviewed review.current)).map Pick.none
  /-- A hunk is accepted as picked, or whole when the picks cannot be told apart. -/
  asPicked : ∀ hunk ∈ Hunks.hunks (d.changes review.reviewed review.current),
    hunk ∉ review.acceptWidened d selection author →
      hunk.cut settled = hunk.cut (review.acceptPicks d selection)
  whole : ∀ hunk ∈ review.acceptWidened d selection author,
    hunk.cut settled = (hunk.cut (d.changes review.reviewed review.current)).map Pick.every
  /-- Each change has its unpicked reviewed lines, then its picked current lines. -/
  lines : Lines.new text = merge (Lines.new review.reviewed) (Lines.new review.current) 0
    (((d.changes review.reviewed review.current).zip settled).map acceptChoice)
  /-- Unless a hunk was widened, exactly the open lines that were not selected stay open. -/
  rest : review.acceptWidened d selection author = [] →
    openLines d review.base text review.current =
      (openLines d review.base review.reviewed review.current).difference selection

/-- Accepting lines accepts what was picked and nothing else. -/
def AcceptsPicked : Prop :=
  (review.acceptLines d selection author = none ↔ review.NamesNoneOpen d selection) ∧
    ∀ version, review.acceptLines d selection author = some version →
      ∃ settled, review.AcceptsLines d selection author settled (review.textOf version)

/-- The picks leave the unterminated last reviewed line in front of a picked line, and the
hunk they are in is not widened. -/
def AcceptRunsOn : Prop :=
  Glues isNewline (Lines.new review.reviewed)
      (((d.changes review.reviewed review.current).zip (review.acceptPicks d selection)).map
        acceptChoice) ∧
    ∀ hunk ∈ review.acceptWidened d selection author,
      hunk.holds ((d.changes review.reviewed review.current).length - 1) = false

/-! What the selection picks. -/

/-- The pick that a selection makes of one open change. -/
def acceptPick (change : Change) : Pick :=
  let bases := change.before.positions.map (beforeLine (d.changes review.base review.reviewed))
  let pick : Pick :=
    { removed := bases.map fun base => base.any (· ∈ selection.removed)
      added := change.after.positions.map (· ∈ selection.added) }
  let addressed := ((bases.zip pick.removed).filterMap fun entry =>
    if entry.1.isSome then some entry.2 else none) ++ pick.added
  if !addressed.isEmpty && addressed.all id then Pick.every change else pick

theorem acceptPicks_eq : review.acceptPicks d selection =
    (d.changes review.reviewed review.current).map (review.acceptPick d selection) := rfl

@[simp] theorem acceptPicks_length : (review.acceptPicks d selection).length =
    (d.changes review.reviewed review.current).length := by
  rw [acceptPicks_eq, List.length_map]

variable {d review selection}

/-- A pick tests the base line behind a removed line, and the added line. Rewritten
reviewed lines, which have no base line, are picked with a fully picked change. -/
theorem acceptPick_eq (selection : LineSelection) (change : Change) : ∃ removed added : Nat → Bool,
    review.acceptPick d selection change = .of change removed added ∧
    (∀ line ∈ change.before.positions, ∀ base,
      beforeLine (d.changes review.base review.reviewed) line = some base →
        (removed line = true ↔ base ∈ selection.removed)) ∧
    (∀ line ∈ change.after.positions, (added line = true ↔ line ∈ selection.added)) ∧
    ((Pick.of change removed added).any = true → review.NamesOpen d selection change) := by
  unfold acceptPick
  dsimp only
  split_ifs with full
  · simp only [Bool.and_eq_true, List.all_append, List.all_eq_true, id_eq,
      Bool.not_eq_true', List.isEmpty_eq_false_iff, List.zip_map', List.filterMap_map,
      List.mem_filterMap, List.mem_map, List.map_map] at full
    obtain ⟨some_line, removed, added⟩ := full
    have named : ∀ line ∈ change.before.positions, ∀ base,
        beforeLine (d.changes review.base review.reviewed) line = some base →
          base ∈ selection.removed := by
      intro line mem base found
      have flag := removed _ ⟨line, mem, by simp [found]; rfl⟩
      simpa using flag
    have named' : ∀ line ∈ change.after.positions, line ∈ selection.added := by
      intro line mem
      simpa using added _ ⟨line, mem, rfl⟩
    refine ⟨fun _ => true, fun _ => true, Pick.every_eq change, ?_, ?_, fun _ => ?_⟩
    · exact fun line mem base found => iff_of_true rfl (named line mem base found)
    · exact fun line mem => iff_of_true rfl (named' line mem)
    · -- some line of the change has a number that a selection can name
      obtain ⟨flag, mem⟩ := List.exists_mem_of_ne_nil _ some_line
      rcases List.mem_append.mp mem with before | after
      · obtain ⟨line, own, numbered⟩ := List.mem_filterMap.mp before
        cases found : beforeLine (d.changes review.base review.reviewed) line with
        | none => simp [found] at numbered
        | some base => exact Or.inl ⟨line, own, base, found, named line own base found⟩
      · obtain ⟨line, own, -⟩ := List.mem_map.mp after
        exact Or.inr ⟨line, own, named' line own⟩
  · refine ⟨fun line => (beforeLine (d.changes review.base review.reviewed) line).any
      (· ∈ selection.removed), fun line => decide (line ∈ selection.added), ?_, ?_, ?_, ?_⟩
    · simp [Pick.of, Function.comp_def]
    · intro line mem base found
      simp [found]
    · exact fun line mem => decide_eq_true_iff
    · intro any
      rcases Pick.any_of.mp any with ⟨line, mem, picked⟩ | ⟨line, mem, picked⟩
      · obtain ⟨base, found, inside⟩ := (Option.any_eq_true _ _).mp picked
        exact Or.inl ⟨line, mem, base, found, by simpa using inside⟩
      · exact Or.inr ⟨line, mem, by simpa using picked⟩

/-- The flags of a removed line with a base line say whether the selection names it. -/
theorem mem_pickedLines_removed {change : Change} {line base : Nat}
    (mem : line ∈ change.before.positions)
    (found : beforeLine (d.changes review.base review.reviewed) line = some base) (picked : Bool) :
    line ∈ pickedLines picked change.before (review.acceptPick d selection change).removed ↔
      (base ∈ selection.removed ↔ picked = true) := by
  obtain ⟨removed, added, eq, own, -, -⟩ := review.acceptPick_eq selection change
  rw [eq, Pick.of, pickedLines_map, List.mem_filter, ← own line mem base found]
  cases removed line <;> cases picked <;> simp [mem]

theorem mem_pickedLines_added {change : Change} {line : Nat} (mem : line ∈ change.after.positions)
    (picked : Bool) :
    line ∈ pickedLines picked change.after (review.acceptPick d selection change).added ↔
      (line ∈ selection.added ↔ picked = true) := by
  obtain ⟨removed, added, eq, -, own, -⟩ := review.acceptPick_eq selection change
  rw [eq, Pick.of, pickedLines_map, List.mem_filter, ← own line mem]
  cases added line <;> cases picked <;> simp [mem]

/-- A change has picked lines exactly when the selection names one of its lines. -/
theorem acceptPick_any (change : Change) :
    (review.acceptPick d selection change).any = true ↔ review.NamesOpen d selection change := by
  obtain ⟨removed, added, eq, own, own', named⟩ := review.acceptPick_eq selection change
  rw [eq]
  refine ⟨named, fun names => Pick.any_of.mpr ?_⟩
  rcases names with ⟨line, mem, base, found, inside⟩ | ⟨line, mem, inside⟩
  · exact Or.inl ⟨line, mem, (own line mem base found).mpr inside⟩
  · exact Or.inr ⟨line, mem, (own' line mem).mpr inside⟩

theorem acceptPick_none {change : Change} (unnamed : ¬ review.NamesOpen d selection change) :
    review.acceptPick d selection change = Pick.none change := by
  obtain ⟨removed, added, eq, -⟩ := review.acceptPick_eq selection change
  rw [eq, Pick.of_eq_none]
  rw [← eq, ← Bool.not_eq_true, acceptPick_any]
  exact unnamed

theorem acceptPicks_any : (review.acceptPicks d selection).any Pick.any = true ↔
    ¬ review.NamesNoneOpen d selection := by
  rw [acceptPicks_eq, List.any_map, List.any_eq_true]
  simp only [Function.comp_apply, acceptPick_any, NamesNoneOpen, Finset.disjoint_left, openLines,
    List.mem_toFinset, List.mem_filterMap, List.mem_flatMap, NamesOpen]
  constructor
  · rintro ⟨change, mem, ⟨line, own, base, found, inside⟩ | ⟨line, own, inside⟩⟩ ⟨removed, added⟩
    · exact removed inside ⟨line, ⟨change, mem, own⟩, found⟩
    · exact added inside ⟨change, mem, own⟩
  · intro named
    by_contra unnamed
    push Not at unnamed
    refine named ⟨?_, ?_⟩
    · rintro base inside ⟨line, ⟨change, mem, own⟩, found⟩
      exact (unnamed change mem).1 line own base found inside
    · rintro line inside ⟨change, mem, own⟩
      exact (unnamed change mem).2 line own inside

/-! What accepting writes. -/

variable (d review selection)

/-- The settled picks of a selection. -/
def acceptSettled : List Pick :=
  widenAll (d.changes review.reviewed review.current) (review.acceptWidened d selection author)
    (review.acceptPicks d selection)

variable {d review selection author}

@[simp] theorem acceptSettled_length : (review.acceptSettled d selection author).length =
    (d.changes review.reviewed review.current).length := by
  rw [acceptSettled, widenAll_length, acceptPicks_length]

theorem acceptLines_eq (valid : d.Valid) : review.acceptLines d selection author =
    if (review.acceptPicks d selection).any Pick.any then
      some (review.version (review.spliced d author (review.acceptSplice d author 0
        ((d.changes review.reviewed review.current).zip
          (review.acceptSettled d selection author)))))
    else none := by
  have built := review.acceptBuild_eq valid author (@acceptSettled_length d review selection author)
  rw [acceptLines, settle_eq (review.acceptPicks_length d selection)]
  rw [acceptSettled, acceptWidened] at built ⊢
  split_ifs with any
  · rw [Option.bind_eq_bind, Option.bind_some, built]
    rfl
  · rfl

/-- The check of accepted lines compares the open lines with the unpicked ones. -/
theorem acceptMatches_iff (valid : d.Valid) {picks : List Pick}
    (same : picks.length = (d.changes review.reviewed review.current).length) :
    review.acceptMatches d author picks = true ↔
      openLines d review.base (review.spliced d author (review.acceptSplice d author 0
          ((d.changes review.reviewed review.current).zip picks))).text review.current =
        { removed := (((d.changes review.reviewed review.current).zip picks).flatMap fun entry =>
            (pickedLines false entry.1.before entry.2.removed).filterMap
              (beforeLine (d.changes review.base review.reviewed))).toFinset
          added := (((d.changes review.reviewed review.current).zip picks).flatMap fun entry =>
            pickedLines false entry.1.after entry.2.added).toFinset } := by
  simp only [acceptMatches, review.acceptBuild_eq valid author same, Option.any_some,
    decide_eq_true_eq, filterMap_unpicked, List.filterMap_some]

/-- What the selection leaves unpicked is what it does not name. -/
theorem unpicked_eq_difference :
    (⟨(((d.changes review.reviewed review.current).zip (review.acceptPicks d selection)).flatMap
        fun entry => (pickedLines false entry.1.before entry.2.removed).filterMap
          (beforeLine (d.changes review.base review.reviewed))).toFinset,
      (((d.changes review.reviewed review.current).zip (review.acceptPicks d selection)).flatMap
        fun entry => pickedLines false entry.1.after entry.2.added).toFinset⟩ : LineSelection) =
      (openLines d review.base review.reviewed review.current).difference selection := by
  rw [acceptPicks_eq, ← List.map_prod_left_eq_zip, List.flatMap_map, List.flatMap_map]
  unfold LineSelection.difference openLines
  congr 1
  · ext base
    simp only [List.mem_toFinset, List.mem_flatMap, List.mem_filterMap, Finset.mem_sdiff]
    constructor
    · rintro ⟨change, mem, line, unpicked, found⟩
      have own := (pickedLines_sublist _ _ _).subset unpicked
      refine ⟨⟨line, ⟨change, mem, own⟩, found⟩, fun inside => ?_⟩
      simpa [inside] using (mem_pickedLines_removed own found false).mp unpicked
    · rintro ⟨⟨line, ⟨change, mem, own⟩, found⟩, outside⟩
      exact ⟨change, mem, line, (mem_pickedLines_removed own found false).mpr (by simp [outside]),
        found⟩
  · ext line
    simp only [List.mem_toFinset, List.mem_flatMap, Finset.mem_sdiff]
    constructor
    · rintro ⟨change, mem, unpicked⟩
      have own := (pickedLines_sublist _ _ _).subset unpicked
      refine ⟨⟨change, mem, own⟩, fun inside => ?_⟩
      simpa [inside] using (mem_pickedLines_added own false).mp unpicked
    · rintro ⟨⟨change, mem, own⟩, outside⟩
      exact ⟨change, mem, (mem_pickedLines_added own false).mpr (by simp [outside])⟩

/-! The claim. -/

theorem acceptChoice_every (change : Change) : (acceptChoice (change, Pick.every change)).stay = [] := by
  simp [acceptChoice, Pick.every, pickedLines_replicate]

/-- The written lines are lines of their own unless the picks run two of them together. -/
theorem acceptSettled_lines_iff (valid : d.Valid) :
    Lines.new (review.spliced d author (review.acceptSplice d author 0
        ((d.changes review.reviewed review.current).zip
          (review.acceptSettled d selection author)))).text =
      merge (Lines.new review.reviewed) (Lines.new review.current) 0
        (((d.changes review.reviewed review.current).zip
          (review.acceptSettled d selection author)).map acceptChoice) ↔
      ¬ review.AcceptRunsOn d selection author := by
  have texts : (review.acceptSplice d author 0 ((d.changes review.reviewed review.current).zip
      (review.acceptSettled d selection author))).written.map review.originText =
      merge (Lines.new review.reviewed) (Lines.new review.current) 0
        (((d.changes review.reviewed review.current).zip
          (review.acceptSettled d selection author)).map acceptChoice) := by
    rw [acceptSplice, ← merge_map, keptLines_text, acceptedLines_text]
  have glued := @writesLines_acceptSplice_iff d review _ author _
    (valid review.reviewed review.current) (@acceptSettled_length d review selection author)
  rw [acceptSettled, glues_settled_iff (review.acceptPicks_length d selection)
    fun change => Or.inl (acceptChoice_every change)] at glued
  rw [AcceptRunsOn, ← glued, WritesLines, spliced_text, ← acceptSettled, texts]
  constructor
  · intro own
    rw [← own]
    exact Lines.lineList_new _
  · exact fun own => splitInclusive_flatten own

/-- The settled picks follow the selection, hunk by hunk. -/
theorem acceptSettled_follows (valid : d.Valid)
    (any : (review.acceptPicks d selection).any Pick.any = true)
    (apart : ¬ review.AcceptRunsOn d selection author) :
    review.AcceptsLines d selection author (review.acceptSettled d selection author)
      (review.spliced d author (review.acceptSplice d author 0
        ((d.changes review.reviewed review.current).zip
          (review.acceptSettled d selection author)))).text := by
  have same := review.acceptPicks_length d selection
  have settled : ∀ entry ∈ (d.changes review.reviewed review.current).zip
      (review.acceptSettled d selection author),
      entry.2 = review.acceptPick d selection entry.1 ∨ entry.2 = Pick.every entry.1 :=
    fun entry mem => pick_settled mem
  refine ⟨acceptSettled_length, ?_, ?_, ?_, ?_, ?_, (acceptSettled_lines_iff valid).mpr apart, ?_⟩
  · intro entry mem line own base found inside
    rcases settled entry mem with picked | every
    · rw [picked, mem_pickedLines_removed own found]
      simp [inside]
    · simpa [every, Pick.every, pickedLines_replicate] using own
  · intro entry mem line own inside
    rcases settled entry mem with picked | every
    · rw [picked, mem_pickedLines_added own]
      simp [inside]
    · simpa [every, Pick.every, pickedLines_replicate] using own
  · intro hunk mem unnamed
    have clear : hunk.cut (review.acceptPicks d selection) =
        (hunk.cut (d.changes review.reviewed review.current)).map Pick.none := by
      rw [acceptPicks_eq, cut_map]
      exact List.map_congr_left fun change inside => acceptPick_none (unnamed change inside)
    exact (cut_untouched same mem clear).trans clear
  · intro hunk mem narrow
    rcases cut_settled same mem with ⟨wide, -⟩ | ⟨-, kept⟩
    · exact absurd wide narrow
    · exact kept
  · intro hunk wide
    rcases cut_settled same (mem_widened.mp wide).1 with ⟨-, every⟩ | ⟨narrow, -⟩
    · exact every
    · exact absurd wide narrow
  · intro narrow
    have kept : review.acceptSettled d selection author = review.acceptPicks d selection := by
      rw [acceptSettled, narrow]
      rfl
    have comes := matches_of_widened_nil same any narrow
    rw [kept, (acceptMatches_iff valid same).mp comes, unpicked_eq_difference]

/-- Settled picks are determined hunk by hunk. -/
theorem AcceptsLines.settled_eq {settled : List Pick} {text : Bytes}
    (accepts : review.AcceptsLines d selection author settled text) :
    settled = review.acceptSettled d selection author := by
  have same := review.acceptPicks_length d selection
  apply List.ext_getElem?
  intro index
  by_cases inside : index < (d.changes review.reviewed review.current).length
  · obtain ⟨hunk, mem, holds⟩ := exists_hunk inside
    have cuts : hunk.cut settled = hunk.cut (review.acceptSettled d selection author) := by
      rcases cut_settled same mem with ⟨wide, every⟩ | ⟨narrow, kept⟩
      · exact (accepts.whole hunk wide).trans every.symm
      · exact (accepts.asPicked hunk mem narrow).trans kept.symm
    have at_ := congrArg (fun picks => picks[index - hunk.start]?) cuts
    rw [holds_iff] at holds
    simpa [cut_getElem?, show index - hunk.start < hunk.stop - hunk.start by omega,
      Nat.add_sub_cancel' holds.1] using at_
  · rw [List.getElem?_eq_none (by rw [accepts.length]; omega),
      List.getElem?_eq_none (by rw [acceptSettled_length]; omega)]

end HunkReview

/-- Accepting lines accepts what was picked and nothing else, exactly unless the picks leave
an unterminated last reviewed line in front of a picked line and the differ does not tell. -/
theorem accepts_picked_iff {d : Differ} (valid : d.Valid) (review : HunkReview)
    (selection : LineSelection) (author : MarkAuthor) :
    review.AcceptsPicked d selection author ↔ ¬ review.AcceptRunsOn d selection author := by
  have eq := @HunkReview.acceptLines_eq d review selection author valid
  constructor
  · rintro ⟨-, accepted⟩ runsOn
    -- a picked line in front of which another one stays is picked
    have any : (review.acceptPicks d selection).any Pick.any = true := by
      obtain ⟨⟨c, last, come, -⟩, -⟩ := runsOn
      obtain ⟨entry, mem, rfl⟩ := List.mem_map.mp (List.mem_of_getLast? last)
      obtain ⟨line, picked⟩ := List.exists_mem_of_ne_nil _ come
      refine List.any_eq_true.mpr ⟨entry.2, (List.of_mem_zip mem).2, List.any_eq_true.mpr ?_⟩
      exact ⟨true, List.mem_append_right _ (flag_of_mem_pickedLines picked), rfl⟩
    rw [eq, if_pos any] at accepted
    obtain ⟨settled, accepts⟩ := accepted _ rfl
    have lines := accepts.lines
    rw [accepts.settled_eq, HunkReview.textOf_version] at lines
    exact (review.acceptSettled_lines_iff valid).mp lines runsOn
  · intro apart
    refine ⟨?_, fun version found => ?_⟩
    · rw [eq]
      split_ifs with any
      · simpa using HunkReview.acceptPicks_any.mp any
      · simpa using not_imp_comm.mp HunkReview.acceptPicks_any.mpr any
    · rw [eq] at found
      split_ifs at found with any
      obtain rfl := Option.some.inj found
      rw [HunkReview.textOf_version]
      exact ⟨_, review.acceptSettled_follows valid any apart⟩

/-- The last line "x" of the reviewed version, which no newline ends, stays in front of the
accepted "p": the finished version has neither of the two lines, but "xp". -/
theorem accepts_unpicked_text :
    bareEndDiffer.Valid ∧ ¬ bareEnd.AcceptsPicked bareEndDiffer ⟨{0}, {4}⟩ .reviewer := by
  refine ⟨bareEndDiffer_valid, ?_⟩
  rintro ⟨-, accepted⟩
  have done : bareEnd.acceptLines bareEndDiffer ⟨{0}, {4}⟩ .reviewer = some (.partially
      ⟨[75, 10, 119, 10, 118, 10, 112, 10, 112, 10, 119, 10, 118, 10, 120, 112, 10],
        ⟨.jev, [⟨⟨0, 1⟩, .reviewer⟩], []⟩⟩) := by decide
  obtain ⟨settled, accepts⟩ := accepted _ done
  have lines := congrArg List.length accepts.lines
  rw [accepts.settled_eq] at lines
  revert lines
  decide

/-- Accepting the only changed line of a file accepts that line. -/
theorem accepts_one_line :
    (HunkReview.new [97, 10, 98, 10] [97, 10, 98, 10] [65, 10, 98, 10]).AcceptsPicked
      trimmedDiffer ⟨{0}, {0}⟩ .jev := by
  refine (accepts_picked_iff trimmedDiffer_valid _ _ _).mpr ?_
  rintro ⟨⟨c, -, -, -, line, last, bare⟩, -⟩
  have ends : (Lines.new [97, 10, 98, 10]).getLast? = some [98, 10] := by decide
  obtain rfl := Option.some.inj (last.symm.trans ends)
  exact absurd bare.2 (by decide)

end ProgressiveReviewer.Hunks
