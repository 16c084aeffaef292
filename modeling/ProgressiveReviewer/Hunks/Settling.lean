import ProgressiveReviewer.Hunks.Authors
import Mathlib.Data.List.SplitBy

/-! Which hunks settling takes whole (`review-hunks/src/lines.rs`, `settle`). A touched
hunk is widened when its picks do not come out by themselves, or when the picks of all
touched hunks do not come out together; every other hunk keeps the picks it was given. -/

namespace ProgressiveReviewer.Hunks

open Library Library.Extent

/-! The hunks cut the changes into consecutive pieces. -/

theorem hunksFrom_bounds {start : Nat} {groups : List (List Change)} {hunk : Extent}
    (mem : hunk ∈ hunksFrom start groups) :
    start ≤ hunk.start ∧ hunk.start ≤ hunk.stop ∧ hunk.stop ≤ start + groups.flatten.length := by
  induction groups generalizing start with
  | nil => cases mem
  | cons group groups ih =>
    rw [List.flatten_cons, List.length_append]
    rcases List.mem_cons.mp mem with rfl | mem
    · dsimp only
      omega
    · have rest := ih mem
      omega

theorem hunksFrom_disjoint (start : Nat) (groups : List (List Change)) :
    (hunksFrom start groups).Pairwise fun first second => first.stop ≤ second.start := by
  induction groups generalizing start with
  | nil => exact List.Pairwise.nil
  | cons group groups ih =>
    exact List.pairwise_cons.mpr ⟨fun hunk mem => (hunksFrom_bounds mem).1, ih _⟩

theorem exists_hunksFrom {start index : Nat} {groups : List (List Change)} (le : start ≤ index)
    (lt : index < start + groups.flatten.length) :
    ∃ hunk ∈ hunksFrom start groups, hunk.holds index = true := by
  induction groups generalizing start with
  | nil =>
    simp only [List.flatten_nil, List.length_nil] at lt
    omega
  | cons group groups ih =>
    rw [List.flatten_cons, List.length_append] at lt
    by_cases inside : index < start + group.length
    · exact ⟨_, List.mem_cons_self, (holds_iff _ _).mpr ⟨le, inside⟩⟩
    · obtain ⟨hunk, mem, holds⟩ := @ih (start + group.length) (by omega) (by omega)
      exact ⟨hunk, List.mem_cons_of_mem _ mem, holds⟩

variable {changes : List Change}

theorem hunks_disjoint (changes : List Change) :
    (hunks changes).Pairwise fun first second => first.stop ≤ second.start :=
  hunksFrom_disjoint 0 _

/-- Every change belongs to a hunk. -/
theorem exists_hunk {index : Nat} (lt : index < changes.length) :
    ∃ hunk ∈ hunks changes, hunk.holds index = true := by
  refine exists_hunksFrom (Nat.zero_le _) ?_
  rwa [hunkGroups, List.flatten_splitBy, Nat.zero_add]

/-- It belongs to one hunk only. -/
theorem hunk_unique {first second : Extent} (mem : first ∈ hunks changes)
    (mem' : second ∈ hunks changes) {index : Nat} (holds : first.holds index = true)
    (holds' : second.holds index = true) : first = second := by
  rw [holds_iff] at holds holds'
  rcases pairwise_either (hunks_disjoint changes) mem mem' with same | before | after
  · exact same
  · omega
  · omega

/-! Widening hunks one after the other. -/

/-- Widening a hunk picks all lines of its changes and leaves the other picks. -/
theorem widen_getElem? (changes : List Change) {picks : List Pick}
    (same : picks.length = changes.length) (hunk : Extent) (index : Nat) :
    (widen changes picks hunk)[index]? =
      if hunk.holds index then changes[index]?.map Pick.every else picks[index]? := by
  simp only [holds_iff, ← mem_positions, widen]
  generalize hunk.positions = positions
  induction positions generalizing picks with
  | nil => simp
  | cons position positions ih =>
    rw [List.foldl_cons, ih (by split <;> simpa using same)]
    simp only [List.mem_cons]
    by_cases later : index ∈ positions
    · rw [if_pos later, if_pos (Or.inr later)]
    · rw [if_neg later]
      by_cases here : index = position
      · subst here
        rw [if_pos (Or.inl rfl)]
        cases found : changes[index]? with
        | none =>
          have outside := List.getElem?_eq_none_iff.mp found
          exact List.getElem?_eq_none (same ▸ outside)
        | some change =>
          have inside := (List.getElem?_eq_some_iff.mp found).1
          simp [same ▸ inside]
      · rw [if_neg (by simp [here, later])]
        split
        · rw [List.getElem?_set_ne (Ne.symm here)]
        · rfl

/-- The picks with the hunks `wide` taken whole. -/
def widenAll (changes : List Change) (wide : List Extent) (picks : List Pick) : List Pick :=
  wide.foldl (widen changes) picks

@[simp] theorem widenAll_length (changes : List Change) (wide : List Extent) (picks : List Pick) :
    (widenAll changes wide picks).length = picks.length := by
  unfold widenAll
  induction wide generalizing picks with
  | nil => rfl
  | cons hunk wide ih => rw [List.foldl_cons, ih, HunkReview.widen_length]

theorem widenAll_getElem? {picks : List Pick} (same : picks.length = changes.length)
    (wide : List Extent) (index : Nat) :
    (widenAll changes wide picks)[index]? =
      if ∃ hunk ∈ wide, hunk.holds index = true then changes[index]?.map Pick.every
      else picks[index]? := by
  unfold widenAll
  induction wide generalizing picks with
  | nil => simp
  | cons hunk wide ih =>
    rw [List.foldl_cons, ih (by rw [HunkReview.widen_length, same]), widen_getElem? changes same]
    by_cases later : ∃ hunk ∈ wide, hunk.holds index = true
    · have all : ∃ other ∈ hunk :: wide, other.holds index = true := by
        obtain ⟨other, mem, holds⟩ := later
        exact ⟨other, List.mem_cons_of_mem _ mem, holds⟩
      rw [if_pos later, if_pos all]
    · rw [if_neg later]
      by_cases here : hunk.holds index = true
      · rw [if_pos here, if_pos ⟨hunk, List.mem_cons_self, here⟩]
      · rw [if_neg here, if_neg]
        rintro ⟨other, mem, holds⟩
        rcases List.mem_cons.mp mem with rfl | mem
        · exact here holds
        · exact later ⟨other, mem, holds⟩

theorem widenAll_congr {picks : List Pick} (same : picks.length = changes.length)
    {wide wide' : List Extent}
    (agree : ∀ index, (∃ hunk ∈ wide, hunk.holds index = true) ↔
      ∃ hunk ∈ wide', hunk.holds index = true) :
    widenAll changes wide picks = widenAll changes wide' picks := by
  apply List.ext_getElem?
  intro index
  rw [widenAll_getElem? same, widenAll_getElem? same, if_congr (agree index) rfl rfl]

theorem widenAll_widenAll (wide wide' : List Extent) (picks : List Pick) :
    widenAll changes wide' (widenAll changes wide picks) = widenAll changes (wide ++ wide') picks :=
  List.foldl_append.symm

/-! Settling. -/

section

variable (changes : List Change) (picks : List Pick) («matches» : List Pick → Bool)

/-- Some line of the hunk is picked. -/
def touches (hunk : Extent) : Bool := (hunk.cut picks).any Pick.any

/-- The touched hunks whose picks do not come out by themselves. -/
def failing : List Extent :=
  (hunks changes).filter fun hunk =>
    touches picks hunk && !«matches» (alone changes picks hunk)

/-- The picks of all touched hunks, the failing ones taken whole. -/
def joint : List Pick := widenAll changes (failing changes picks «matches») picks

/-- The hunks that settling takes whole. -/
def widened : List Extent :=
  (hunks changes).filter fun hunk => touches picks hunk &&
    !(«matches» (alone changes picks hunk) && «matches» (joint changes picks «matches»))

end

variable {picks : List Pick} {«matches» : List Pick → Bool}

@[simp] theorem alone_length (same : picks.length = changes.length) (hunk : Extent) :
    (alone changes picks hunk).length = changes.length := by
  simp [alone, same]

theorem alone_getElem? (same : picks.length = changes.length) {hunk : Extent} {index : Nat}
    (holds : hunk.holds index = true) : (alone changes picks hunk)[index]? = picks[index]? := by
  simp only [alone, List.getElem?_map, List.getElem?_zipIdx, Nat.zero_add, Option.map_map]
  by_cases inside : index < (changes.zip picks).length
  · have inside' := inside
    simp only [List.length_zip, Nat.lt_min] at inside'
    rw [List.getElem?_eq_getElem inside, Option.map_some, List.getElem_zip,
      List.getElem?_eq_getElem inside'.2]
    simp only [Function.comp_apply, holds, if_true, Option.map_some]
  · have outside : picks.length ≤ index := by
      rw [List.length_zip] at inside
      omega
    rw [List.getElem?_eq_none (Nat.le_of_not_lt inside), List.getElem?_eq_none outside]
    rfl

/-- What one hunk picks alone depends on its own picks only. -/
theorem alone_congr {picks' : List Pick} (same : picks'.length = picks.length) {hunk : Extent}
    (agree : ∀ index, hunk.holds index = true → picks'[index]? = picks[index]?) :
    alone changes picks' hunk = alone changes picks hunk := by
  apply List.ext_getElem?
  intro index
  simp only [alone, List.getElem?_map, List.getElem?_zipIdx, Nat.zero_add, Option.map_map]
  by_cases inside : index < (changes.zip picks).length
  · have inside' : index < (changes.zip picks').length := by simpa [same] using inside
    rw [List.getElem?_eq_getElem inside, List.getElem?_eq_getElem inside', Option.map_some,
      Option.map_some, List.getElem_zip, List.getElem_zip]
    by_cases own : hunk.holds index = true
    · have picked := agree index own
      simp only [List.length_zip, Nat.lt_min] at inside inside'
      rw [List.getElem?_eq_getElem inside.2, List.getElem?_eq_getElem inside'.2] at picked
      simp [Option.some.inj picked]
    · rw [holds_iff] at own
      simp [if_neg own]
  · have outside : (changes.zip picks').length ≤ index := by
      rw [List.length_zip] at inside ⊢
      omega
    rw [List.getElem?_eq_none (Nat.le_of_not_lt inside), List.getElem?_eq_none outside]

/-- Checking each hunk by itself before widening the next one finds the failing ones. -/
theorem foldl_alone (same : picks.length = changes.length) {hunks : List Extent}
    (disjoint : hunks.Pairwise fun first second => first.stop ≤ second.start)
    {now : List Pick} (same' : now.length = changes.length)
    (agree : ∀ hunk ∈ hunks, ∀ index, hunk.holds index = true → now[index]? = picks[index]?) :
    hunks.foldl (fun picks hunk =>
        if «matches» (alone changes picks hunk) then picks else widen changes picks hunk) now =
      widenAll changes (hunks.filter fun hunk => !«matches» (alone changes picks hunk)) now := by
  induction hunks generalizing now with
  | nil => rfl
  | cons hunk hunks ih =>
    obtain ⟨first, rest⟩ := List.pairwise_cons.mp disjoint
    have later : ∀ other ∈ hunks, ∀ index, other.holds index = true →
        now[index]? = picks[index]? :=
      fun other mem => agree other (List.mem_cons_of_mem _ mem)
    rw [List.foldl_cons,
      alone_congr (same'.trans same.symm) (agree hunk List.mem_cons_self)]
    cases comes : «matches» (alone changes picks hunk) with
    | true =>
      rw [if_pos rfl, ih rest same' later, List.filter_cons_of_neg (by simp [comes])]
    | false =>
      rw [if_neg (by simp), ih rest (by rw [HunkReview.widen_length, same']),
        List.filter_cons_of_pos (by simp [comes])]
      · rfl
      · intro other mem index holds
        -- the hunk just widened ends before the later ones start
        have apart := first other mem
        have outside : ¬ hunk.holds index = true := by
          rw [holds_iff] at holds ⊢
          omega
        rw [widen_getElem? changes same', if_neg outside]
        exact later other mem index holds

theorem mem_widened {hunk : Extent} :
    hunk ∈ widened changes picks «matches» ↔ hunk ∈ hunks changes ∧ touches picks hunk = true ∧
      («matches» (alone changes picks hunk) = false ∨
        «matches» (joint changes picks «matches») = false) := by
  simp [widened]

/-- Settling takes the widened hunks whole and leaves the others as picked. -/
theorem settle_eq (same : picks.length = changes.length) :
    settle changes picks «matches» =
      if picks.any Pick.any then
        some (widenAll changes (widened changes picks «matches») picks)
      else none := by
  have pass : ((hunks changes).filter fun hunk => (hunk.cut picks).any Pick.any).foldl
      (fun picks hunk =>
        if «matches» (alone changes picks hunk) then picks else widen changes picks hunk) picks =
      joint changes picks «matches» := by
    rw [foldl_alone same ((hunks_disjoint changes).filter _) same fun _ _ _ _ => rfl,
      List.filter_filter]
    unfold joint failing touches
    congr 1
    exact List.filter_congr fun hunk _ => Bool.and_comm _ _
  unfold settle
  cases any : picks.any Pick.any with
  | false => rfl
  | true =>
    simp only [Bool.not_true, Bool.false_eq_true, if_false, if_true]
    rw [pass]
    cases together : «matches» (joint changes picks «matches») with
    | true =>
      have same_hunks : widened changes picks «matches» = failing changes picks «matches» := by
        simp [widened, failing, together]
      rw [if_pos rfl, same_hunks, joint]
    | false =>
      rw [if_neg (by simp)]
      refine congrArg some ?_
      show widenAll changes _ (widenAll changes _ picks) = _
      rw [widenAll_widenAll]
      refine widenAll_congr same fun index => exists_congr fun hunk => ?_
      rw [mem_widened]
      simp only [List.mem_append, failing, List.mem_filter, together]
      grind [touches]

/-- A hunk comes out as picked or, when it is widened, whole. -/
theorem cut_settled (same : picks.length = changes.length) {hunk : Extent}
    (mem : hunk ∈ hunks changes) :
    (hunk ∈ widened changes picks «matches» ∧
        hunk.cut (widenAll changes (widened changes picks «matches») picks) =
          (hunk.cut changes).map Pick.every) ∨
      (hunk ∉ widened changes picks «matches» ∧
        hunk.cut (widenAll changes (widened changes picks «matches») picks) = hunk.cut picks) := by
  have own : ∀ index, hunk.holds index = true →
      ((∃ other ∈ widened changes picks «matches», other.holds index = true) ↔
        hunk ∈ widened changes picks «matches») := by
    refine fun index holds => ⟨?_, fun wide => ⟨hunk, wide, holds⟩⟩
    rintro ⟨other, wide, holds'⟩
    exact hunk_unique (mem_widened.mp wide).1 mem holds' holds ▸ wide
  by_cases wide : hunk ∈ widened changes picks «matches»
  · refine Or.inl ⟨wide, ?_⟩
    apply List.ext_getElem?
    intro offset
    rw [cut_getElem?, List.getElem?_map, cut_getElem?]
    split_ifs with inside
    · have holds : hunk.holds (hunk.start + offset) = true := by
        rw [holds_iff]
        omega
      rw [widenAll_getElem? same, if_pos ((own _ holds).mpr wide)]
    · rfl
  · refine Or.inr ⟨wide, ?_⟩
    apply List.ext_getElem?
    intro offset
    rw [cut_getElem?, cut_getElem?]
    split_ifs with inside
    · have holds : hunk.holds (hunk.start + offset) = true := by
        rw [holds_iff]
        omega
      rw [widenAll_getElem? same, if_neg (mt (own _ holds).mp wide)]
    · rfl

/-- A hunk is touched when one of its changes has a picked line. -/
theorem touches_of_any {hunk : Extent} {index : Nat} {pick : Pick}
    (get : picks[index]? = some pick) (picked : pick.any = true)
    (holds : hunk.holds index = true) : touches picks hunk = true := by
  rw [holds_iff] at holds
  refine List.any_eq_true.mpr ⟨pick, ?_, picked⟩
  refine List.mem_of_getElem? (i := index - hunk.start) ?_
  rw [cut_getElem?, if_pos (by omega), Nat.add_sub_cancel' holds.1, get]

/-- When no hunk is widened, the picks come out as they are. -/
theorem matches_of_widened_nil (same : picks.length = changes.length)
    (any : picks.any Pick.any = true) (narrow : widened changes picks «matches» = []) :
    «matches» picks = true := by
  obtain ⟨pick, mem, picked⟩ := List.any_eq_true.mp any
  obtain ⟨index, get⟩ := List.mem_iff_getElem?.mp mem
  have lt := (List.getElem?_eq_some_iff.mp get).1
  obtain ⟨hunk, inHunks, holds⟩ := exists_hunk (show index < changes.length from same ▸ lt)
  have touched := touches_of_any get picked holds
  have none_wide : ∀ other, other ∉ widened changes picks «matches» := by simp [narrow]
  have together : «matches» (joint changes picks «matches») = true := by
    by_contra apart
    exact none_wide hunk (mem_widened.mpr ⟨inHunks, touched, Or.inr (by simpa using apart)⟩)
  have clear : failing changes picks «matches» = [] := by
    rw [List.eq_nil_iff_forall_not_mem]
    intro other mem'
    obtain ⟨inHunks', fails⟩ := List.mem_filter.mp mem'
    simp only [Bool.and_eq_true, Bool.not_eq_true'] at fails
    exact none_wide other (mem_widened.mpr ⟨inHunks', fails.1, Or.inl fails.2⟩)
  rwa [joint, clear] at together

end ProgressiveReviewer.Hunks
