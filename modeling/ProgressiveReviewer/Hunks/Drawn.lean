import ProgressiveReviewer.Hunks.Reopen
import ProgressiveReviewer.Hunks.UnifiedRows

/-! Reviewed hunks as they are drawn: their rows are a diff from the base to the current file, and
the gaps between the changes they join are the same on both sides. -/

namespace ProgressiveReviewer.Hunks

open Library Library.Extent

/-- Subtraction that does not go below zero. -/
def checkedSub (a b : Nat) : Option Nat := if b ≤ a then some (a - b) else none

theorem checkedSub_of_le {a b : Nat} (le : b ≤ a) : checkedSub a b = some (a - b) := if_pos le

/-! ## Building with checked subtraction -/

namespace HunkRows

variable (rows : HunkRows)

def checkedBetween (previous placed : PlacedChange) : Option (List DiffRow) := do
  let gap ← checkedSub placed.current.start previous.current.stop
  some ((List.range gap).map fun offset =>
    let newLine := previous.current.stop + offset
    .context (previous.base.stop + offset + 1) (newLine + 1) (rowText ' ' (rows.current.line newLine)))

def checkedRowsFrom : Option PlacedChange → List PlacedChange → Option (List DiffRow)
  | _, [] => some []
  | none, placed :: group => do
    let rest ← checkedRowsFrom (some placed) group
    some (rows.changed placed ++ rest)
  | some previous, placed :: group => do
    let between ← rows.checkedBetween previous placed
    let rest ← checkedRowsFrom (some placed) group
    some (between ++ rows.changed placed ++ rest)

def checkedHunk (group : List PlacedChange) : Option (Option ReviewedHunk) :=
  match group.head?, group.getLast? with
  | some first, some last => do
    let rows ← rows.checkedRowsFrom none group
    some (some
      { span := ⟨⟨first.base.start, last.base.stop⟩, ⟨first.current.start, last.current.stop⟩⟩
        rows })
  | _, _ => some none

end HunkRows

def checkedJoins («open» : List Change) (placed : Option PlacedChange) (group : List PlacedChange) :
    Option Bool :=
  match placed, group.getLast? with
  | some next, some last => do
    let gap ← checkedSub next.base.start last.base.stop
    some (decide (gap ≤ 2 * context) &&
      !«open».any fun change => overlaps change.before ⟨last.reviewed.stop, next.reviewed.start⟩)
  | _, _ => some false

def checkedTranslateFrom (range : Range) : Int → List (Range × Range) → Option (Option Range)
  | shift, [] => some (translateFrom range shift [])
  | shift, (source, target) :: edits =>
    if overlaps source range then some none
    else if source.stop ≤ range.start then do
      let added ← checkedSub target.stop target.start
      let removed ← checkedSub source.stop source.start
      checkedTranslateFrom range (shift + added - removed) edits
    else checkedTranslateFrom range shift edits

def checkedPlace («open» : List Change) (change : Change) : Option (Option PlacedChange) :=
  (checkedTranslateFrom change.after 0 (forward «open»)).map fun current =>
    current.map fun current => ⟨change.before, change.after, current⟩

/-- The reviewed hunks, or nothing when a subtraction goes below zero. -/
def checkedHunksFrom (rows : HunkRows) («open» : List Change) :
    List PlacedChange → List Change → Option (List ReviewedHunk)
  | group, [] => (rows.checkedHunk group).map Option.toList
  | group, change :: reviewed => do
    let placed ← checkedPlace «open» change
    let joins ← checkedJoins «open» placed group
    if joins then checkedHunksFrom rows «open» (group ++ placed.toList) reviewed
    else do
      let done ← rows.checkedHunk group
      let rest ← checkedHunksFrom rows «open» placed.toList reviewed
      some (done.toList ++ rest)

/-! ## Groups of placed changes -/

/-- The groups that become hunks, in order. -/
def placedGroups («open» : List Change) :
    List PlacedChange → List Change → List (List PlacedChange)
  | group, [] => [group]
  | group, change :: reviewed =>
    let placed := placeChange «open» change
    if joinsGroup «open» placed group then placedGroups «open» (group ++ placed.toList) reviewed
    else group :: placedGroups «open» placed.toList reviewed

theorem reviewedHunksFrom_eq (rows : HunkRows) («open» : List Change) (group : List PlacedChange)
    (reviewed : List Change) : reviewedHunksFrom rows «open» group reviewed =
      (placedGroups «open» group reviewed).flatMap fun group => (rows.hunk group).toList := by
  induction reviewed generalizing group with
  | nil => simp [reviewedHunksFrom, placedGroups]
  | cons change reviewed ih =>
    rw [reviewedHunksFrom, placedGroups]
    split_ifs
    · exact ih _
    · rw [List.flatMap_cons, ih]

theorem placedGroups_flatten («open» : List Change) (group : List PlacedChange)
    (reviewed : List Change) : (placedGroups «open» group reviewed).flatten =
      group ++ reviewed.filterMap (placeChange «open») := by
  induction reviewed generalizing group with
  | nil => simp [placedGroups]
  | cons change reviewed ih =>
    rw [placedGroups, List.filterMap_cons]
    split_ifs
    · rw [ih]
      cases placeChange «open» change <;> simp
    · rw [List.flatten_cons, ih]
      cases placeChange «open» change <;> simp

/-- Two placed changes next to each other in a hunk: the lines between them are kept. -/
def Joined (xs zs : Lines) (a b : PlacedChange) : Prop :=
  Kept xs zs a.base.stop a.current.stop b.base.start b.current.start

/-- A change placed within both versions. -/
def Within (xs zs : Lines) (placed : PlacedChange) : Prop :=
  placed.base.start ≤ placed.base.stop ∧ placed.current.start ≤ placed.current.stop ∧
    placed.base.stop ≤ xs.length ∧ placed.current.stop ≤ zs.length

/-- A group whose changes join one another. -/
def Chained (xs zs : Lines) (group : List PlacedChange) : Prop :=
  group.IsChain (Joined xs zs) ∧ ∀ placed ∈ group, Within xs zs placed

/-- A group while it grows: its last change is the one the script used last. -/
structure Growing (xs zs : Lines) («open» : List Change) (group : List PlacedChange) (gap i j : Nat) :
    Prop where
  chained : Chained xs zs group
  last : ∀ last ∈ group.getLast?, gap = 1 ∧ last.base.stop = i ∧ last.reviewed.stop = j ∧
    last.reviewed.start ≤ last.reviewed.stop ∧ Placed 0 0 «open» last.reviewed last.current

section Script

variable {xs ys zs : Lines} {«open» : List Change} {gap i j : Nat} {change : Change}
  {changes : List Change} {group : List PlacedChange} {placed : PlacedChange}
  (opens : Script ys zs «open») (fit : change.Fits xs ys gap i j)
include opens fit

theorem within_placed (found : placeChange «open» change = some placed) : Within xs zs placed := by
  obtain ⟨eq, isPlaced, -⟩ := placeChange_eq_some opens fit.after_le found
  have size := isPlaced.size
  have := fit.after_le
  rw [eq]
  exact ⟨fit.before_le, by dsimp only; omega, fit.before_stop,
    isPlaced.stop_le opens fit.after_stop (Nat.zero_le _) (Nat.zero_le _)⟩

/-- A change that joins follows lines that both the reviewed and the open changes keep. -/
theorem joined_placed {last : PlacedChange} (found : placeChange «open» change = some placed)
    (used : gap = 1 ∧ last.base.stop = i ∧ last.reviewed.stop = j ∧
      last.reviewed.start ≤ last.reviewed.stop ∧ Placed 0 0 «open» last.reviewed last.current)
    (apart : ∀ e ∈ «open», Apart e.before ⟨last.reviewed.stop, placed.reviewed.start⟩) :
    Joined xs zs last placed := by
  obtain ⟨rfl, rfl, rfl, le, lastPlaced⟩ := used
  obtain ⟨eq, isPlaced, -⟩ := placeChange_eq_some opens fit.after_le found
  have reviewed : placed.reviewed = change.after := by rw [eq]
  have base : placed.base = change.before := by rw [eq]
  rw [reviewed] at apart
  have behind := fit.after_start
  have whole := lastPlaced.join opens isPlaced le fit.after_le (by omega) apart
  have size := lastPlaced.size
  have size' := isPlaced.size
  have size'' := whole.size
  dsimp only at size''
  have keeps := whole.keeps opens (show last.reviewed.start ≤ change.after.stop by
    have := fit.after_le
    omega) fit.after_stop
  have between : Kept ys zs last.reviewed.stop last.current.stop change.after.start
      placed.current.start :=
    keeps.within le (by omega) fit.after_le (by dsimp only; omega) (by dsimp only; omega)
  have before := fit.keeps
  have shift := before.shift
  have shift' := between.shift
  rw [Joined, base]
  exact ⟨before.le, by omega, before.same.trans between.same, before.bound, between.bound'⟩

theorem Growing.next (growing : Growing xs zs «open» group gap i j) :
    Growing xs zs «open» (if joinsGroup «open» (placeChange «open» change) group
      then group ++ (placeChange «open» change).toList else (placeChange «open» change).toList)
      1 change.before.stop change.after.stop := by
  cases found : placeChange «open» change with
  | none =>
    have no : joinsGroup «open» none group = false := rfl
    rw [no, if_neg Bool.false_ne_true]
    exact ⟨⟨.nil, fun _ mem => (List.not_mem_nil mem).elim⟩, fun _ mem => by cases mem⟩
  | some placed =>
    obtain ⟨eq, isPlaced, -⟩ := placeChange_eq_some opens fit.after_le found
    have own := within_placed opens fit found
    have ends : (1 = 1) ∧ placed.base.stop = change.before.stop ∧
        placed.reviewed.stop = change.after.stop ∧ placed.reviewed.start ≤ placed.reviewed.stop ∧
        Placed 0 0 «open» placed.reviewed placed.current := by
      rw [eq]
      exact ⟨rfl, rfl, rfl, fit.after_le, isPlaced⟩
    split_ifs with joins
    · refine ⟨⟨growing.chained.1.append (.singleton placed) fun last isLast next isNext => ?_, ?_⟩, ?_⟩
      · obtain rfl : placed = next := by simpa using isNext
        refine joined_placed opens fit found (growing.last last isLast) fun e mem => ?_
        simp only [joinsGroup, Option.mem_def.mp isLast, Bool.and_eq_true, Bool.not_eq_true',
          List.any_eq_false] at joins
        exact overlaps_eq_false_iff.mp (Bool.eq_false_iff.mpr (joins.2 e mem))
      · rw [List.forall_mem_append]
        exact ⟨growing.chained.2, by simpa using own⟩
      · intro last isLast
        obtain rfl : placed = last := by simpa using isLast
        exact ends
    · refine ⟨⟨.singleton placed, by simpa using own⟩, fun last isLast => ?_⟩
      obtain rfl : placed = last := by simpa using isLast
      exact ends

omit fit in
/-- Every group that becomes a hunk is a chain. -/
theorem chained_placedGroups (script : ScriptFrom xs ys gap i j changes)
    (growing : Growing xs zs «open» group gap i j) :
    ∀ part ∈ placedGroups «open» group changes, Chained xs zs part := by
  induction changes generalizing group gap i j with
  | nil => exact fun part mem => List.mem_singleton.mp mem ▸ growing.chained
  | cons change changes ih =>
    have next := growing.next opens script.1
    rw [placedGroups]
    split_ifs at next ⊢ with joins
    · exact ih script.2 next
    · rw [List.forall_mem_cons]
      exact ⟨growing.chained, ih script.2 next⟩

end Script

/-! ## Rows of a group -/

section Rows

variable {xs zs : Lines}

theorem checkedRowsFrom_eq {previous : Option PlacedChange} {group : List PlacedChange}
    (chained : (previous.toList ++ group).IsChain (Joined xs zs)) :
    HunkRows.checkedRowsFrom ⟨xs, zs⟩ previous group =
      some (HunkRows.rowsFrom ⟨xs, zs⟩ previous group) := by
  induction group generalizing previous with
  | nil => cases previous <;> rfl
  | cons placed group ih =>
    cases previous with
    | none =>
      rw [HunkRows.checkedRowsFrom, @ih (some placed) chained]
      rfl
    | some previous =>
      obtain ⟨joined, chained⟩ := List.isChain_cons_cons.mp chained
      have between : HunkRows.checkedBetween ⟨xs, zs⟩ previous placed =
          some (HunkRows.between ⟨xs, zs⟩ previous placed) := by
        rw [HunkRows.checkedBetween, checkedSub_of_le joined.le']
        rfl
      rw [HunkRows.checkedRowsFrom, between, @ih (some placed) chained]
      rfl

theorem checkedHunk_eq {group : List PlacedChange} (chained : Chained xs zs group) :
    HunkRows.checkedHunk ⟨xs, zs⟩ group = some (HunkRows.hunk ⟨xs, zs⟩ group) := by
  unfold HunkRows.checkedHunk HunkRows.hunk
  rw [@checkedRowsFrom_eq xs zs none group chained.1]
  cases group.head? <;> cases group.getLast? <;> rfl

theorem shows_between {i j : Nat} (count : Nat)
    (kept : Kept xs zs i j (i + count) (j + count)) :
    ShowsLines xs zs (i + count) (j + count) i j ((List.range count).map fun offset =>
      .context (i + offset + 1) (j + offset + 1) (rowText ' ' (zs[j + offset]?))) := by
  induction count with
  | zero => exact ⟨rfl, rfl⟩
  | succ count ih =>
    have same := kept.getElem? (n := count) (by omega)
    have bound := kept.bound'
    have last : ShowsLines xs zs (i + count + 1) (j + count + 1) (i + count) (j + count)
        [.context (i + count + 1) (j + count + 1) (rowText ' ' (zs[j + count]?))] := by
      have found : zs[j + count]? = some zs[j + count] := List.getElem?_eq_getElem (by omega)
      exact ⟨⟨rfl, rfl, _, same.trans found, found, by rw [found]⟩, rfl, rfl⟩
    rw [List.range_succ, List.map_append]
    exact (ih (kept.within (Nat.le_refl i) (by omega) (by omega) (Nat.add_comm i j)
      (by omega))).append last

theorem shows_removed {range : Range} (le : range.start ≤ range.stop)
    (bound : range.stop ≤ xs.length) (j : Nat) :
    ShowsLines xs zs range.stop j range.start j (range.positions.map fun line =>
      .delete (line + 1) (rowText '-' (xs[line]?))) := by
  obtain ⟨start, stop⟩ := range
  obtain ⟨count, size⟩ := Nat.exists_eq_add_of_le le
  dsimp only at size bound
  subst size
  rw [positions, Nat.add_sub_cancel_left]
  clear le
  induction count generalizing start with
  | zero => exact ⟨rfl, rfl⟩
  | succ count ih =>
    have found : xs[start]? = some xs[start] := List.getElem?_eq_getElem (by omega)
    have rest := ih (start + 1) (by omega)
    rw [Nat.add_right_comm, Nat.add_assoc] at rest
    exact ⟨⟨rfl, _, found, by rw [found]⟩, rest⟩

theorem shows_added {range : Range} (le : range.start ≤ range.stop)
    (bound : range.stop ≤ zs.length) (i : Nat) :
    ShowsLines xs zs i range.stop i range.start (range.positions.map fun line =>
      .add (line + 1) (rowText '+' (zs[line]?))) := by
  obtain ⟨start, stop⟩ := range
  obtain ⟨count, size⟩ := Nat.exists_eq_add_of_le le
  dsimp only at size bound
  subst size
  rw [positions, Nat.add_sub_cancel_left]
  clear le
  induction count generalizing start with
  | zero => exact ⟨rfl, rfl⟩
  | succ count ih =>
    have found : zs[start]? = some zs[start] := List.getElem?_eq_getElem (by omega)
    have rest := ih (start + 1) (by omega)
    rw [Nat.add_right_comm, Nat.add_assoc] at rest
    exact ⟨⟨rfl, _, found, by rw [found]⟩, rest⟩

/-- The rows of a group show the lines from its first change to its last. -/
theorem shows_rowsFrom {group : List PlacedChange} {first last : PlacedChange}
    (chained : Chained xs zs group) (isFirst : group.head? = some first)
    (isLast : group.getLast? = some last) :
    ShowsLines xs zs last.base.stop last.current.stop first.base.start first.current.start
      (HunkRows.rowsFrom ⟨xs, zs⟩ none group) := by
  have changed : ∀ placed, Within xs zs placed → ShowsLines xs zs placed.base.stop placed.current.stop
      placed.base.start placed.current.start (HunkRows.changed ⟨xs, zs⟩ placed) :=
    fun placed within => (shows_removed within.1 within.2.2.1 _).append
      (shows_added within.2.1 within.2.2.2 _)
  have rest : ∀ {group : List PlacedChange} {previous : PlacedChange},
      (previous :: group).IsChain (Joined xs zs) → (∀ placed ∈ group, Within xs zs placed) →
      (previous :: group).getLast? = some last →
      ShowsLines xs zs last.base.stop last.current.stop previous.base.stop previous.current.stop
        (HunkRows.rowsFrom ⟨xs, zs⟩ (some previous) group) := by
    intro group
    induction group with
    | nil =>
      intro previous _ _ isLast
      obtain rfl : previous = last := by simpa using isLast
      exact ⟨rfl, rfl⟩
    | cons placed group ih =>
      intro previous chain within isLast
      obtain ⟨joined, chain⟩ := List.isChain_cons_cons.mp chain
      obtain ⟨own, within⟩ := List.forall_mem_cons.mp within
      rw [List.getLast?_cons_cons] at isLast
      have le := joined.le
      have le' := joined.le'
      have shift := joined.shift
      have between : ShowsLines xs zs placed.base.start placed.current.start previous.base.stop
          previous.current.stop (HunkRows.between ⟨xs, zs⟩ previous placed) := by
        have kept : Kept xs zs previous.base.stop previous.current.stop
            (previous.base.stop + (placed.current.start - previous.current.stop))
            (previous.current.stop + (placed.current.start - previous.current.stop)) := by
          rw [show previous.base.stop + (placed.current.start - previous.current.stop) =
            placed.base.start by omega, Nat.add_sub_cancel' le']
          exact joined
        have shown := shows_between (placed.current.start - previous.current.stop) kept
        rw [show previous.base.stop + (placed.current.start - previous.current.stop) =
          placed.base.start by omega, Nat.add_sub_cancel' le'] at shown
        exact shown
      exact (between.append (changed placed own)).append (ih chain within isLast)
  cases group with
  | nil => cases isFirst
  | cons placed group =>
    obtain rfl : placed = first := Option.some.inj isFirst
    obtain ⟨own, within⟩ := List.forall_mem_cons.mp chained.2
    exact (changed placed own).append (rest chained.1 within isLast)

end Rows

theorem checkedPlace_eq {ys zs : Lines} {«open» : List Change} (opens : Script ys zs «open»)
    (change : Change) : checkedPlace «open» change = some (placeChange «open» change) := by
  have ordered : ∀ e ∈ «open», e.before.start ≤ e.before.stop ∧ e.after.start ≤ e.after.stop :=
    fun e mem => ⟨(opens.bounds mem).2.2.1, (opens.bounds mem).2.2.2.1⟩
  have translated : ∀ shift, checkedTranslateFrom change.after shift (forward «open») =
      some (translateFrom change.after shift (forward «open»)) := by
    clear opens
    induction «open» with
    | nil => exact fun shift => rfl
    | cons e es ih =>
      obtain ⟨own, ordered⟩ := List.forall_mem_cons.mp ordered
      intro shift
      rw [forward_cons, checkedTranslateFrom, translateFrom.eq_2, checkedSub_of_le own.1,
        checkedSub_of_le own.2]
      split_ifs
      · rfl
      · exact ih ordered _
      · exact ih ordered _
  rw [checkedPlace, translated]
  rfl

/-- No subtraction goes below zero. -/
theorem checkedHunksFrom_eq {xs ys zs : Lines} {«open» changes : List Change}
    {group : List PlacedChange} {gap i j : Nat} (opens : Script ys zs «open»)
    (script : ScriptFrom xs ys gap i j changes) (growing : Growing xs zs «open» group gap i j) :
    checkedHunksFrom ⟨xs, zs⟩ «open» group changes =
      some (reviewedHunksFrom ⟨xs, zs⟩ «open» group changes) := by
  induction changes generalizing group gap i j with
  | nil =>
    rw [checkedHunksFrom, checkedHunk_eq growing.chained]
    rfl
  | cons change changes ih =>
    have next := growing.next opens script.1
    have joins : checkedJoins «open» (placeChange «open» change) group =
        some (joinsGroup «open» (placeChange «open» change) group) := by
      cases found : placeChange «open» change with
      | none => rfl
      | some placed =>
        cases isLast : group.getLast? with
        | none => simp only [checkedJoins, joinsGroup, isLast]
        | some last =>
          obtain ⟨eq, -, -⟩ := placeChange_eq_some opens script.1.after_le found
          obtain ⟨-, stop, -⟩ := growing.last last isLast
          have le : last.base.stop ≤ placed.base.start := by
            have := script.1.before_start
            rw [stop, eq]
            exact le_trans (Nat.le_add_right i gap) this
          simp only [checkedJoins, joinsGroup, isLast, checkedSub_of_le le]
          rfl
    rw [checkedHunksFrom, checkedPlace_eq opens, reviewedHunksFrom]
    dsimp only [Option.bind_eq_bind, Option.bind_some]
    rw [joins]
    dsimp only [Option.bind_some]
    split_ifs at next ⊢
    · exact ih script.2 next
    · rw [checkedHunk_eq growing.chained, ih script.2 next]
      rfl

/-! ## Order -/

/-- One hunk lies before another on both sides. -/
def HunkSpan.Precedes (a b : HunkSpan) : Prop :=
  a.old.stop < b.old.start ∧ a.new.stop ≤ b.new.start

theorem placed_pairwise {xs ys zs : Lines} {«open» changes : List Change} {gap i j : Nat}
    (opens : Script ys zs «open») (script : ScriptFrom xs ys gap i j changes) :
    (changes.filterMap (placeChange «open»)).Pairwise fun a b =>
      a.base.stop < b.base.start ∧ a.current.stop ≤ b.current.start := by
  rw [List.pairwise_filterMap]
  refine script.pairwise.imp_of_mem fun {a b} mem mem' apart => ?_
  intro placed found placed' found'
  have le := (script.bounds mem).2.2.2.1
  have le' := (script.bounds mem').2.2.2.1
  obtain ⟨eq, isPlaced, clear⟩ := placeChange_eq_some opens le found
  obtain ⟨eq', isPlaced', -⟩ := placeChange_eq_some opens le' found'
  rw [eq, eq']
  exact ⟨apart.1, isPlaced.mono opens isPlaced' le le' clear (Nat.le_of_lt apart.2)⟩

theorem hunk_eq_some {rows : HunkRows} {group : List PlacedChange} {hunk : ReviewedHunk}
    (found : hunk ∈ (rows.hunk group).toList) : ∃ first last, group.head? = some first ∧
      group.getLast? = some last ∧ hunk = ⟨⟨⟨first.base.start, last.base.stop⟩,
        ⟨first.current.start, last.current.stop⟩⟩, rows.rowsFrom none group⟩ := by
  rw [Option.mem_toList, HunkRows.hunk] at found
  obtain ⟨first, isFirst, found⟩ := Option.bind_eq_some_iff.mp found
  obtain ⟨last, isLast, found⟩ := Option.bind_eq_some_iff.mp found
  exact ⟨first, last, isFirst, isLast, (Option.some.inj found).symm⟩

/-- Reviewed hunks come in the order of their groups. -/
theorem reviewedHunksFrom_pairwise {xs ys zs : Lines} {«open» changes : List Change} {gap i j : Nat}
    (opens : Script ys zs «open») (script : ScriptFrom xs ys gap i j changes) (rows : HunkRows) :
    (reviewedHunksFrom rows «open» [] changes).Pairwise fun a b => a.span.Precedes b.span := by
  have order := placed_pairwise opens script
  rw [← List.nil_append (changes.filterMap (placeChange «open»)), ← placedGroups_flatten,
    List.pairwise_flatten] at order
  rw [reviewedHunksFrom_eq, List.pairwise_flatMap]
  refine ⟨fun group _ => ?_, order.2.imp fun {group group'} apart => ?_⟩
  · cases rows.hunk group <;> simp
  · intro hunk mem hunk' mem'
    obtain ⟨_, last, _, isLast, rfl⟩ := hunk_eq_some mem
    obtain ⟨first, _, isFirst, _, rfl⟩ := hunk_eq_some mem'
    exact apart last (List.mem_of_getLast? isLast) first (List.mem_of_head? isFirst)

/-- Reviewed hunks are drawn as a diff from the base to the current file: in order and apart, each
with the lines of both between the ends of its span, and built without going below zero. -/
theorem hunks_reviewed_drawn {d : Differ} (valid : d.Valid) (self : HunkReview)
    (rows : List DiffRow) (age : MarkAge) (noNotice : ∀ row ∈ rows, row.isNotice = false) :
    let base := Lines.new self.base
    let current := Lines.new self.current
    let hunks := (self.hunks d rows age).reviewed
    (hunks.Pairwise fun a b => a.span.Precedes b.span) ∧
      checkedHunksFrom ⟨base, current⟩ (d.changes self.reviewed self.current) []
        (d.changes self.base self.reviewed) = some hunks ∧
      ∀ hunk ∈ hunks, ShowsLines base current hunk.span.old.stop hunk.span.new.stop
        hunk.span.old.start hunk.span.new.start hunk.rows := by
  intro base current hunks
  have opens := valid self.reviewed self.current
  have script := valid self.base self.reviewed
  have growing : Growing base current (d.changes self.reviewed self.current) [] 0 0 0 :=
    ⟨⟨.nil, fun _ mem => (List.not_mem_nil mem).elim⟩, fun _ mem => by cases mem⟩
  have made : hunks = reviewedHunksFrom ⟨base, current⟩ (d.changes self.reviewed self.current) []
      (d.changes self.base self.reviewed) := by
    have clean : rows.any DiffRow.isNotice = false :=
      List.any_eq_false.mpr fun row mem => Bool.eq_false_iff.mp (noNotice row mem)
    rw [show hunks = (self.hunks d rows age).reviewed from rfl, HunkReview.hunks, clean,
      if_neg Bool.false_ne_true]
    rfl
  rw [made]
  refine ⟨reviewedHunksFrom_pairwise opens script _, checkedHunksFrom_eq opens script growing, ?_⟩
  intro hunk mem
  rw [reviewedHunksFrom_eq] at mem
  obtain ⟨group, held, mem⟩ := List.mem_flatMap.mp mem
  obtain ⟨first, last, isFirst, isLast, rfl⟩ := hunk_eq_some mem
  exact shows_rowsFrom (chained_placedGroups opens script growing group held) isFirst isLast

/-- Two reviewed changes with a line between them, before an open one. -/
def twoReviewed : HunkReview :=
  .new (bytesOf "a\nb\nc\nd\n") (bytesOf "A\nb\nC\nd\n") (bytesOf "A\nb\nC\nd\ne\n")

def twoReviewedDiffer : Differ := tableDiffer [
  ((twoReviewed.base, twoReviewed.reviewed), [⟨⟨0, 1⟩, ⟨0, 1⟩⟩, ⟨⟨2, 3⟩, ⟨2, 3⟩⟩])]

theorem twoReviewedDiffer_valid : twoReviewedDiffer.Valid := tableDiffer_valid (by decide)

def twoReviewedRows : List DiffRow :=
  unifiedRows twoReviewedDiffer "f" (.text none (bytesOf "f")) twoReviewed.reviewed twoReviewed.current

/-- The two are drawn as one hunk. -/
theorem hunks_reviewed_drawn_joined :
    let hunks := (twoReviewed.hunks twoReviewedDiffer twoReviewedRows .outdated).reviewed
    hunks.map (·.span) = [⟨⟨0, 3⟩, ⟨0, 3⟩⟩] ∧ hunks.Pairwise fun a b => a.span.Precedes b.span :=
  ⟨by decide, (hunks_reviewed_drawn twoReviewedDiffer_valid twoReviewed twoReviewedRows
    .outdated (shows_unifiedRows twoReviewedDiffer_valid "f" _ _ _).noNotice).1⟩

end ProgressiveReviewer.Hunks
