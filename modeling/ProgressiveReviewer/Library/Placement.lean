import ProgressiveReviewer.Library.EditScript

/-! Where the extents that no edit of a script touches land on the other side.
`Placed` names the kept block an extent lies in; the lemmas say that placing keeps
the elements, the order and the distances of extents, in both directions. -/

namespace ProgressiveReviewer.Library

open Extent

variable {α : Type*}

/-- `r'` has the position in the kept block of `ys` that `r` has in that of `xs`,
when `i` and `j` are where the block starts. -/
structure Shifted (i j : Nat) (r r' : Extent) : Prop where
  from_block : i ≤ r.start
  start : r.start + j = r'.start + i
  stop : r.stop + j = r'.stop + i

theorem Shifted.swap {i j : Nat} {r r' : Extent} (h : Shifted i j r r') : Shifted j i r' r :=
  ⟨by have := h.from_block; have := h.start; omega, h.start.symm, h.stop.symm⟩

/-- `r` lies in a block the script keeps, and `r'` is its place on the other side. -/
def Placed : Nat → Nat → List Edit → Extent → Extent → Prop
  | i, j, [], r, r' => Shifted i j r r'
  | i, j, e :: es, r, r' =>
      (r.stop ≤ e.before.start ∧ Shifted i j r r') ∨ Placed e.before.stop e.after.stop es r r'

theorem Placed.swap {xs ys : List α} {gap i j : Nat} {es : List Edit} {r r' : Extent}
    (script : ScriptFrom xs ys gap i j es) (h : Placed i j es r r') :
    Placed j i (es.map Edit.swap) r' r := by
  induction es generalizing gap i j with
  | nil => exact Shifted.swap h
  | cons e es ih =>
    rcases h with ⟨stop, shifted⟩ | later
    · refine Or.inl ⟨?_, shifted.swap⟩
      have := script.1.same_gap
      have := shifted.stop
      simp only [Edit.swap_before]
      omega
    · exact Or.inr (ih script.2 later)

/-- What a script used up comes before every extent it places. -/
theorem Placed.from {xs ys : List α} {gap i j : Nat} {es : List Edit} {r r' : Extent}
    (script : ScriptFrom xs ys gap i j es) (h : Placed i j es r r') :
    i ≤ r.start ∧ j ≤ r'.start := by
  induction es generalizing gap i j with
  | nil => exact ⟨h.from_block, (Shifted.swap h).from_block⟩
  | cons e es ih =>
    rcases h with ⟨_, shifted⟩ | later
    · exact ⟨shifted.from_block, shifted.swap.from_block⟩
    · have bound := ih script.2 later
      have fit := script.1
      have := fit.before_start
      have := fit.after_start
      have := fit.before_le
      have := fit.after_le
      omega

theorem Placed.size {i j : Nat} {es : List Edit} {r r' : Extent} (h : Placed i j es r r') :
    r.start + r'.stop = r'.start + r.stop := by
  induction es generalizing i j with
  | nil =>
    have := h.start
    have := h.stop
    omega
  | cons e es ih =>
    rcases h with ⟨_, shifted⟩ | later
    · have := shifted.start
      have := shifted.stop
      omega
    · exact ih later

/-- An extent apart from every edit is placed. -/
theorem exists_placed {xs ys : List α} {gap i j : Nat} {es : List Edit} {r : Extent}
    (script : ScriptFrom xs ys gap i j es) (hi : i ≤ r.start) (le : r.start ≤ r.stop)
    (apart : ∀ e ∈ es, Apart e.before r) : ∃ r', Placed i j es r r' := by
  induction es generalizing gap i j with
  | nil => exact ⟨⟨r.start + j - i, r.stop + j - i⟩, hi, by dsimp only; omega, by dsimp only; omega⟩
  | cons e es ih =>
    by_cases before : r.stop ≤ e.before.start
    · exact ⟨⟨r.start + j - i, r.stop + j - i⟩,
        Or.inl ⟨before, hi, by dsimp only; omega, by dsimp only; omega⟩⟩
    · have far : e.before.stop ≤ r.start := by
        have := apart e List.mem_cons_self
        unfold Apart at this
        split_ifs at this <;> omega
      obtain ⟨r', later⟩ := ih script.2 far fun f mem => apart f (List.mem_cons_of_mem e mem)
      exact ⟨r', Or.inr later⟩

/-- Placing keeps the elements. -/
theorem Placed.cut_eq {xs ys : List α} {gap i j : Nat} {es : List Edit} {r r' : Extent}
    (script : ScriptFrom xs ys gap i j es) (h : Placed i j es r r') : cut xs r = cut ys r' := by
  induction es generalizing gap i j with
  | nil =>
    have from_i := h.from_block
    have start := h.start
    have stop := h.stop
    have tail : xs.drop i = ys.drop j := script
    have hx : xs.drop r.start = (xs.drop i).drop (r.start - i) := by
      rw [List.drop_drop]; congr 1; omega
    have hy : ys.drop r'.start = (ys.drop j).drop (r.start - i) := by
      rw [List.drop_drop]; congr 1; omega
    have size : r.stop - r.start = r'.stop - r'.start := by omega
    rw [cut, cut, hx, hy, tail, size]
  | cons e es ih =>
    rcases h with ⟨stop, shifted⟩ | later
    · have from_i := shifted.from_block
      have start := shifted.start
      have stop' := shifted.stop
      have gapEq := script.1.same_gap
      by_cases le : r.start ≤ r.stop
      · have hx := cut_cut xs ⟨i, e.before.start⟩ (a := r.start - i) (b := r.stop - i)
          (by dsimp only; omega)
        have hy := cut_cut ys ⟨j, e.after.start⟩ (a := r.start - i) (b := r.stop - i)
          (by dsimp only; omega)
        rw [script.1.kept, hy] at hx
        have ex : (⟨i + (r.start - i), i + (r.stop - i)⟩ : Extent) = r := by
          cases r; simp only [Extent.mk.injEq]; dsimp only at *; omega
        have ey : (⟨j + (r.start - i), j + (r.stop - i)⟩ : Extent) = r' := by
          cases r'; simp only [Extent.mk.injEq]; dsimp only at *; omega
        rw [ex, ey] at hx
        exact hx.symm
      · rw [cut_empty xs r (by omega), cut_empty ys r' (by omega)]
    · exact ih script.2 later

/-- Placing keeps extents inside. -/
theorem Placed.stop_le {xs ys : List α} {gap i j : Nat} {es : List Edit} {r r' : Extent}
    (script : ScriptFrom xs ys gap i j es) (h : Placed i j es r r') (bound : r.stop ≤ xs.length)
    (hi : i ≤ xs.length) (hj : j ≤ ys.length) : r'.stop ≤ ys.length := by
  induction es generalizing gap i j with
  | nil =>
    have lengths := script.lengths hi hj rfl
    have := h.stop
    omega
  | cons e es ih =>
    have fit := script.1
    rcases h with ⟨stop, shifted⟩ | later
    · have := shifted.stop
      have := fit.same_gap
      have := fit.after_le
      have := fit.after_stop
      omega
    · exact ih script.2 later fit.before_stop fit.after_stop

/-- Placing keeps the order of extents. -/
theorem Placed.mono {xs ys : List α} {gap i j : Nat} {es : List Edit} {a a' b b' : Extent}
    (script : ScriptFrom xs ys gap i j es) (ha : Placed i j es a a') (hb : Placed i j es b b')
    (la : a.start ≤ a.stop) (lb : b.start ≤ b.stop) (apart : ∀ e ∈ es, Apart e.before a)
    (order : a.stop ≤ b.start) : a'.stop ≤ b'.start := by
  induction es generalizing gap i j with
  | nil =>
    have := ha.stop
    have := hb.start
    omega
  | cons e es ih =>
    have fit := script.1
    have gapEq := fit.same_gap
    have beforeLe := fit.before_le
    have afterLe := fit.after_le
    rcases ha with ⟨aStop, aShift⟩ | aLater <;> rcases hb with ⟨bStop, bShift⟩ | bLater
    · have := aShift.stop
      have := bShift.start
      omega
    · have := (bLater.from script.2).2
      have := aShift.stop
      omega
    · -- `a` after `e` and `b` before it: both and `e.before` would be empty at one point.
      have := (aLater.from script.2).1
      have := apart e List.mem_cons_self
      unfold Apart at this
      split_ifs at this <;> omega
    · exact ih script.2 aLater bLater fun f mem => apart f (List.mem_cons_of_mem e mem)

/-- An extent between two placed ones that no edit touches joins them: the two lie
in one kept block. -/
theorem Placed.join {xs ys : List α} {gap i j : Nat} {es : List Edit} {a a' b b' : Extent}
    (script : ScriptFrom xs ys gap i j es) (ha : Placed i j es a a') (hb : Placed i j es b b')
    (la : a.start ≤ a.stop) (lb : b.start ≤ b.stop) (order : a.stop < b.start)
    (apart : ∀ e ∈ es, Apart e.before ⟨a.stop, b.start⟩) :
    Placed i j es ⟨a.start, b.stop⟩ ⟨a'.start, b'.stop⟩ := by
  induction es generalizing gap i j with
  | nil => exact ⟨ha.from_block, ha.start, hb.stop⟩
  | cons e es ih =>
    have fit := script.1
    have beforeLe := fit.before_le
    have between := apart e List.mem_cons_self
    unfold Apart at between
    dsimp only at between
    rcases ha with ⟨aStop, aShift⟩ | aLater <;> rcases hb with ⟨bStop, bShift⟩ | bLater
    · exact Or.inl ⟨bStop, aShift.from_block, aShift.start, bShift.stop⟩
    · have := (bLater.from script.2).1
      split_ifs at between <;> omega
    · have := (aLater.from script.2).1
      omega
    · exact Or.inr (ih script.2 aLater bLater
        fun f mem => apart f (List.mem_cons_of_mem e mem))

/-- Each edit is on the same side of a placed extent in both lists, and is away from
it on one side when it is on the other. -/
theorem Placed.side {xs ys : List α} {gap i j : Nat} {es : List Edit} {r r' : Extent}
    (script : ScriptFrom xs ys gap i j es) (h : Placed i j es r r') {e : Edit} (mem : e ∈ es) :
    (e.before.stop ≤ r.start ∧ e.after.stop ≤ r'.start ∧
        (e.before.stop < r.start ↔ e.after.stop < r'.start)) ∨
      (r.stop ≤ e.before.start ∧ r'.stop ≤ e.after.start ∧
        (r.stop < e.before.start ↔ r'.stop < e.after.start)) := by
  induction es generalizing gap i j with
  | nil => cases mem
  | cons f es ih =>
    have fit := script.1
    have gapEq := fit.same_gap
    have beforeLe := fit.before_le
    have afterLe := fit.after_le
    rcases h with ⟨stop, shifted⟩ | later
    · have start := shifted.start
      have stop' := shifted.stop
      rcases List.mem_cons.mp mem with rfl | mem
      · exact Or.inr ⟨stop, by omega, by omega⟩
      · have later := script.2.bounds mem
        exact Or.inr ⟨by omega, by omega, by omega⟩
    · rcases List.mem_cons.mp mem with rfl | mem
      · left
        have bound := later.from script.2
        refine ⟨bound.1, bound.2, ?_⟩
        cases es with
        | nil =>
          have := later.start
          omega
        | cons g es =>
          rcases later with ⟨_, shifted⟩ | later
          · have := shifted.start
            omega
          · have bound := later.from script.2.2
            have next := script.2.1
            have := next.before_start
            have := next.after_start
            have := next.before_le
            have := next.after_le
            omega
      · exact ih script.2 later mem

/-- An extent apart from two extents and from what lies between them is apart from all of it. -/
theorem Extent.Apart.join {e a b : Extent} (la : a.start ≤ a.stop) (lb : b.start ≤ b.stop)
    (le : e.start ≤ e.stop) (order : a.stop < b.start) (ha : Apart e a)
    (between : Apart e ⟨a.stop, b.start⟩) (hb : Apart e b) : Apart e ⟨a.start, b.stop⟩ := by
  unfold Apart at *
  dsimp only at *
  split_ifs at * <;> omega

end ProgressiveReviewer.Library
