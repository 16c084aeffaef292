import ProgressiveReviewer.Library.Placement
import Mathlib.Data.List.SplitBy
import Mathlib.Data.List.Chain

/-! Edits of a script gathered into groups, and the frame of each group: its edits with a margin
of kept elements around them. -/

namespace ProgressiveReviewer.Library

open Extent

variable {α : Type*} {xs ys : List α}

/-- Equal stretches of both lists, from one pair of positions to another. -/
structure Kept (xs ys : List α) (i j i' j' : Nat) : Prop where
  le : i ≤ i'
  shift : i' + j = j' + i
  same : cut xs ⟨i, i'⟩ = cut ys ⟨j, j'⟩
  bound : i' ≤ xs.length
  bound' : j' ≤ ys.length

namespace Kept

variable {i j i' j' : Nat}

theorem le' (kept : Kept xs ys i j i' j') : j ≤ j' := by
  have := kept.le
  have := kept.shift
  omega

theorem refl (bound : i ≤ xs.length) (bound' : j ≤ ys.length) : Kept xs ys i j i j :=
  ⟨Nat.le_refl i, Nat.add_comm i j, by rw [cut_empty xs _ (Nat.le_refl i), cut_empty ys _ (Nat.le_refl j)],
    bound, bound'⟩

theorem getElem? (kept : Kept xs ys i j i' j') {n : Nat} (small : i + n < i') :
    xs[i + n]? = ys[j + n]? := by
  have shift := kept.shift
  have same := congrArg (·[n]?) kept.same
  simp only [cut_getElem?] at same
  rwa [if_pos (by omega), if_pos (by omega)] at same

/-- Stretches that are equal element by element. -/
theorem of_getElem? (le : i ≤ i') (shift : i' + j = j' + i) (bound : i' ≤ xs.length)
    (bound' : j' ≤ ys.length) (same : ∀ n, i + n < i' → xs[i + n]? = ys[j + n]?) :
    Kept xs ys i j i' j' := by
  refine ⟨le, shift, List.ext_getElem? fun n => ?_, bound, bound'⟩
  rw [cut_getElem?, cut_getElem?]
  by_cases small : n < i' - i
  · rw [if_pos small, if_pos (show n < j' - j by omega)]
    exact same n (by omega)
  · rw [if_neg small, if_neg (show ¬ n < j' - j by omega)]

/-- A stretch of an equal one. -/
theorem within (kept : Kept xs ys i j i' j') {a b a' b' : Nat} (low : i ≤ a) (le : a ≤ b)
    (high : b ≤ i') (start : a + j = a' + i) (stop : b + j = b' + i) : Kept xs ys a a' b b' := by
  have bound := kept.bound
  have bound' := kept.bound'
  have shift := kept.shift
  refine of_getElem? le (by omega) (by omega) (by omega) fun n small => ?_
  have same := kept.getElem? (n := a - i + n) (by omega)
  rwa [show i + (a - i + n) = a + n by omega, show j + (a - i + n) = a' + n by omega] at same

theorem trans {i'' j'' : Nat} (first : Kept xs ys i j i' j') (second : Kept xs ys i' j' i'' j'') :
    Kept xs ys i j i'' j'' := by
  have le := first.le
  have shift := first.shift
  have le' := second.le
  have shift' := second.shift
  refine of_getElem? (by omega) (by omega) second.bound second.bound' fun n small => ?_
  by_cases early : i + n < i'
  · exact first.getElem? early
  · have same := second.getElem? (n := i + n - i') (by omega)
    rwa [show i' + (i + n - i') = i + n by omega, show j' + (i + n - i') = j + n by omega] at same

end Kept

theorem Edit.Fits.keeps {gap i j : Nat} {e : Edit} (fit : e.Fits xs ys gap i j) :
    Kept xs ys i j e.before.start e.after.start := by
  have := fit.before_start
  exact ⟨by omega, fit.same_gap, fit.kept, fit.before_le.trans fit.before_stop,
    fit.after_le.trans fit.after_stop⟩

/-- What a script keeps after its last edit. -/
theorem kept_to_end {i j : Nat} (same : xs.drop i = ys.drop j) (bound : i ≤ xs.length)
    (bound' : j ≤ ys.length) : Kept xs ys i j xs.length ys.length := by
  have lengths := congrArg List.length same
  simp only [List.length_drop] at lengths
  exact ⟨bound, by omega, by rw [cut_to_end, cut_to_end, same], Nat.le_refl _, Nat.le_refl _⟩

/-- A placed extent is a kept stretch. -/
theorem Placed.keeps {es : List Edit} {r r' : Extent} (script : Script xs ys es)
    (placed : Placed 0 0 es r r') (le : r.start ≤ r.stop) (bound : r.stop ≤ xs.length) :
    Kept xs ys r.start r'.start r.stop r'.stop :=
  ⟨le, by have := placed.size; omega, placed.cut_eq script, bound,
    placed.stop_le script bound (Nat.zero_le _) (Nat.zero_le _)⟩

/-- Edits with the elements kept between and around them, from one pair of positions to another. -/
def Body (xs ys : List α) : Nat → Nat → List Edit → Nat → Nat → Prop
  | i, j, [], i', j' => Kept xs ys i j i' j'
  | i, j, e :: es, i', j' =>
    Kept xs ys i j e.before.start e.after.start ∧ e.before.start ≤ e.before.stop ∧
      e.after.start ≤ e.after.stop ∧ e.before.stop ≤ xs.length ∧ e.after.stop ≤ ys.length ∧
      (e.before.start < e.before.stop ∨ e.after.start < e.after.stop) ∧
      Body xs ys e.before.stop e.after.stop es i' j'

theorem Body.bounds {i j i' j' : Nat} {es : List Edit} (body : Body xs ys i j es i' j') :
    i ≤ i' ∧ j ≤ j' ∧ i' ≤ xs.length ∧ j' ≤ ys.length := by
  induction es generalizing i j with
  | nil => exact ⟨body.le, body.le', body.bound, body.bound'⟩
  | cons e es ih =>
    obtain ⟨kept, le, le', -, -, -, rest⟩ := body
    have := kept.le
    have := kept.le'
    have := ih rest
    omega

theorem Body.start_at {i j i' j' a b : Nat} {e : Edit} {es : List Edit}
    (body : Body xs ys i j (e :: es) i' j') (kept : Kept xs ys a b e.before.start e.after.start) :
    Body xs ys a b (e :: es) i' j' := ⟨kept, body.2⟩

theorem ScriptFrom.rest {gap i j : Nat} {es post : List Edit} {last : Edit}
    (script : ScriptFrom xs ys gap i j (es ++ last :: post)) :
    ScriptFrom xs ys 1 last.before.stop last.after.stop post := by
  induction es generalizing gap i j with
  | nil => exact script.2
  | cons e es ih => exact ih script.2

/-- The edits of a script up to one of them, with what it keeps after that one. -/
theorem ScriptFrom.body {gap i j i' j' : Nat} {es post : List Edit} {last : Edit}
    (script : ScriptFrom xs ys gap i j (es ++ last :: post))
    (kept : Kept xs ys last.before.stop last.after.stop i' j') :
    Body xs ys i j (es ++ [last]) i' j' := by
  induction es generalizing gap i j with
  | nil =>
    have fit := script.1
    exact ⟨fit.keeps, fit.before_le, fit.after_le, fit.before_stop, fit.after_stop, fit.nonempty,
      kept⟩
  | cons e es ih =>
    have fit := script.1
    exact ⟨fit.keeps, fit.before_le, fit.after_le, fit.before_stop, fit.after_stop, fit.nonempty,
      ih script.2⟩

/-- A group of edits and its frame. -/
structure Frame where
  around : Edit
  edits : List Edit

/-- The frame of edits from `first` to `last`, with at most `margin` elements of the first list,
which has `size` of them, on each side. -/
def frameOf (margin size : Nat) (first last : Edit) : Edit :=
  let start := first.before.start - margin
  let stop := min (last.before.stop + margin) size
  ⟨⟨start, stop⟩,
    ⟨first.after.start - (first.before.start - start), last.after.stop + (stop - last.before.stop)⟩⟩

/-- Frames in order, with kept elements between and around them; at least `gap` of them come
before the first frame. -/
def Framed (xs ys : List α) : Nat → Nat → Nat → List Frame → Prop
  | _, i, j, [] => Kept xs ys i j xs.length ys.length
  | gap, i, j, frame :: frames =>
    i + gap ≤ frame.around.before.start ∧
      Kept xs ys i j frame.around.before.start frame.around.after.start ∧
      frame.edits ≠ [] ∧
      Body xs ys frame.around.before.start frame.around.after.start frame.edits
        frame.around.before.stop frame.around.after.stop ∧
      Framed xs ys 1 frame.around.before.stop frame.around.after.stop frames

/-- The frame of a group. -/
def framedGroup (margin size : Nat) (group : List Edit) : List Frame :=
  match group.head?, group.getLast? with
  | some first, some last => [⟨frameOf margin size first last, group⟩]
  | _, _ => []

/-- Whether two groups are more than two margins apart. -/
def Distant (margin : Nat) (group next : List Edit) : Prop :=
  ∀ last ∈ group.getLast?, ∀ first ∈ next.head?, last.before.stop + 2 * margin < first.before.start

/-- What a script keeps after an edit has room for a margin. -/
theorem ScriptFrom.margin {i j : Nat} {es : List Edit} (margin : Nat)
    (script : ScriptFrom xs ys 1 i j es) (bound : i ≤ xs.length) (bound' : j ≤ ys.length)
    (room : ∀ next ∈ es.head?, i + margin ≤ next.before.start) :
    Kept xs ys i j (min (i + margin) xs.length) (j + (min (i + margin) xs.length - i)) := by
  cases es with
  | nil =>
    exact (kept_to_end script bound bound').within (Nat.le_refl i) (by omega) (by omega)
      (Nat.add_comm i j) (by omega)
  | cons e es =>
    have near := room e rfl
    have := script.1.before_le.trans script.1.before_stop
    exact script.1.keeps.within (Nat.le_refl i) (by omega) (by omega)
      (Nat.add_comm i j) (by omega)

/-- Groups of a script's edits that are more than two margins apart have frames in order. -/
theorem ScriptFrom.framed {margin gap gap' i j p q : Nat} {groups : List (List Edit)}
    (script : ScriptFrom xs ys gap i j groups.flatten) (kept : Kept xs ys i j p q)
    (room : ∀ first ∈ groups.flatten.head?, p + gap' ≤ first.before.start - margin)
    (nonempty : [] ∉ groups) (distant : groups.IsChain (Distant margin)) :
    Framed xs ys gap' p q (groups.flatMap (framedGroup margin xs.length)) := by
  induction groups generalizing gap gap' i j p q with
  | nil =>
    have whole := kept_to_end script (kept.le.trans kept.bound) (kept.le'.trans kept.bound')
    have := whole.shift
    have := kept.shift
    exact whole.within kept.le kept.bound (Nat.le_refl _) (by omega) (by omega)
  | cons group groups ih =>
    obtain ⟨some_, others⟩ := not_or.mp (mt List.mem_cons.mpr nonempty)
    obtain ⟨first, rest, rfl⟩ := List.exists_cons_of_ne_nil (Ne.symm some_)
    obtain ⟨es, last, split⟩ : ∃ es last, first :: rest = es ++ [last] :=
      ⟨_, _, (List.dropLast_append_getLast (List.cons_ne_nil first rest)).symm⟩
    have isLast : (first :: rest).getLast? = some last := by
      rw [split, List.getLast?_concat]
    have after : ScriptFrom xs ys gap i j (es ++ last :: groups.flatten) := by
      rw [List.flatten_cons, split, List.append_assoc, List.singleton_append] at script
      exact script
    have bounds := after.bounds (e := last) (List.mem_append_right es List.mem_cons_self)
    have near : p + gap' ≤ first.before.start - margin := room first rfl
    have fit : first.Fits xs ys gap i j := script.1
    -- the next group starts more than two margins after the last edit
    have next : ∀ e ∈ groups.flatten.head?, last.before.stop + 2 * margin < e.before.start := by
      intro e mem
      cases groups with
      | nil => cases mem
      | cons group' groups' =>
        have some' : group' ≠ [] := fun empty => others (empty ▸ List.mem_cons_self)
        obtain ⟨first', rest', rfl⟩ := List.exists_cons_of_ne_nil some'
        obtain rfl : first' = e := Option.some.inj mem
        exact (List.isChain_cons_cons.mp distant).1 last isLast first' rfl
    have margin_ := after.rest.margin margin bounds.2.2.2.2.1 bounds.2.2.2.2.2.1
      fun e mem => by
        have := next e mem
        omega
    have frame : framedGroup margin xs.length (first :: rest) =
        [⟨frameOf margin xs.length first last, first :: rest⟩] := by
      rw [framedGroup, isLast]
      rfl
    have start := fit.same_gap
    have low := kept.le
    have shift := kept.shift
    rw [List.flatMap_cons, frame, List.singleton_append]
    refine ⟨near, ?_, List.cons_ne_nil first rest, ?_, ?_⟩
    · exact fit.keeps.within low (by dsimp only [frameOf]; omega) (by dsimp only [frameOf]; omega)
        (by omega) (by dsimp only [frameOf]; omega)
    · have body := after.body margin_
      rw [← split] at body
      exact body.start_at (fit.keeps.within (by dsimp only [frameOf]; omega)
        (by dsimp only [frameOf]; omega) (Nat.le_refl _) (by dsimp only [frameOf]; omega)
        (by omega))
    · refine ih after.rest margin_ (fun e mem => ?_) others distant.of_cons
      have := next e mem
      dsimp only [frameOf]
      omega

end ProgressiveReviewer.Library
