import Mathlib.Algebra.Ring.Nat
import ProgressiveReviewer.Library.EditScript

/-! Edits between two lists that may touch each other: an extent that no edit meets stands on
the other side where the edits before it move it. -/

namespace ProgressiveReviewer.Library

open Extent

variable {α : Type*}

/-- Ordered, disjoint, non-empty edits that turn `xs` from position `i` on into `ys` from
position `j` on, with equal elements outside them. -/
def Between (xs ys : List α) : Nat → Nat → List Edit → Prop
  | i, j, [] => xs.drop i = ys.drop j
  | i, j, e :: es => e.Fits xs ys 0 i j ∧ Between xs ys e.before.stop e.after.stop es

theorem ScriptFrom.between {xs ys : List α} {gap i j : Nat} {es : List Edit}
    (script : ScriptFrom xs ys gap i j es) : Between xs ys i j es := by
  induction es generalizing gap i j with
  | nil => exact script
  | cons e es ih =>
    have fits := script.1
    exact ⟨{ fits with
      before_start := by have := fits.before_start; omega
      after_start := by have := fits.after_start; omega }, ih script.2⟩

/-- An edit meets an extent: it replaces an element of it, puts something strictly inside it, or
strictly surrounds it when it is empty. -/
def Edit.Meets (e : Edit) (r : Extent) : Prop :=
  (∃ n, e.before.holds n = true ∧ r.holds n = true) ∨
    (e.before.start = e.before.stop ∧ r.start < e.before.start ∧ e.before.start < r.stop) ∨
      (r.start = r.stop ∧ e.before.start < r.start ∧ r.start < e.before.stop)

/-- An edit lies before an extent, behind it, or meets it. -/
theorem Edit.meets_iff {e : Edit} {r : Extent} (le : e.before.start ≤ e.before.stop)
    (le' : r.start ≤ r.stop) : e.Meets r ↔ ¬e.before.stop ≤ r.start ∧ ¬r.stop ≤ e.before.start := by
  simp only [Meets, holds_iff]
  constructor
  · rintro (⟨n, inside, inside'⟩ | inside | inside) <;> omega
  · rintro ⟨before, behind⟩
    by_cases insertion : e.before.start = e.before.stop
    · exact .inr (.inl (by omega))
    · by_cases empty : r.start = r.stop
      · exact .inr (.inr (by omega))
      · exact .inl ⟨max e.before.start r.start, by omega, by omega⟩

/-- How many elements the edits up to an extent take away, and how many they put there. -/
def goneBefore (r : Extent) (es : List Edit) : Nat :=
  ((es.filter fun e => e.before.stop ≤ r.start).map fun e => e.before.size).sum

def comeBefore (r : Extent) (es : List Edit) : Nat :=
  ((es.filter fun e => e.before.stop ≤ r.start).map fun e => e.after.size).sum

/-- `r'` is where the edits up to `r` move it, when `i` and `j` are used up. -/
structure Moved (i j : Nat) (es : List Edit) (r r' : Extent) : Prop where
  start : r'.start + i + goneBefore r es = r.start + j + comeBefore r es
  size : r'.start + r.stop = r'.stop + r.start

section Between

variable {xs ys : List α} {i j : Nat} {e : Edit} {es : List Edit} {r : Extent}

theorem Between.starts (between : Between xs ys i j es) (mem : e ∈ es) :
    i ≤ e.before.start ∧ e.before.start ≤ e.before.stop := by
  induction es generalizing i j with
  | nil => cases mem
  | cons f es ih =>
    have := between.1.before_start
    have := between.1.before_le
    rcases List.mem_cons.mp mem with rfl | mem
    · omega
    · have := ih between.2 mem
      omega

theorem counts_cons_of_before (before : e.before.stop ≤ r.start) :
    goneBefore r (e :: es) = e.before.size + goneBefore r es ∧
      comeBefore r (e :: es) = e.after.size + comeBefore r es := by
  simp [goneBefore, comeBefore, before]

/-- Behind the first edit that is not before an extent there is none. -/
theorem Between.counts_of_behind (between : Between xs ys i j es) (behind : r.start < i ∨ es = []) :
    goneBefore r es = 0 ∧ comeBefore r es = 0 := by
  have none_ : (es.filter fun e => e.before.stop ≤ r.start) = [] := by
    refine List.filter_eq_nil_iff.mpr fun e mem => ?_
    rcases behind with behind | rfl
    · have := between.starts mem
      rw [decide_eq_true_eq]
      omega
    · exact (List.not_mem_nil mem).elim
  rw [goneBefore, comeBefore, none_]
  exact ⟨rfl, rfl⟩

theorem Between.counts_cons_of_behind (between : Between xs ys i j (e :: es))
    (behind : ¬e.before.stop ≤ r.start) :
    goneBefore r (e :: es) = 0 ∧ comeBefore r (e :: es) = 0 := by
  have rest := between.2.counts_of_behind (.inl (Nat.lt_of_not_le behind))
  have dropped : ((e :: es).filter fun e => e.before.stop ≤ r.start) =
      es.filter fun e => e.before.stop ≤ r.start := List.filter_cons_of_neg (by simpa using behind)
  rw [goneBefore, comeBefore, dropped]
  exact rest

/-- Of an extent that ends where an edit starts, none of the edits from there on is met. -/
theorem Between.meets_none (between : Between xs ys i j es) (le : r.start ≤ r.stop) (stop : r.stop ≤ i) :
    ∀ e ∈ es, ¬e.Meets r := by
  intro e mem meets
  have bounds := between.starts mem
  have := (e.meets_iff bounds.2 le).mp meets
  omega

/-- The elements of a kept block stand on the other side. -/
theorem cut_shifted {stop stop' : Nat} (kept : cut xs ⟨i, stop⟩ = cut ys ⟨j, stop'⟩)
    (gap : stop + j = stop' + i) (start : i ≤ r.start) (bound : r.stop ≤ stop) :
    cut xs r = cut ys ⟨r.start + j - i, r.stop + j - i⟩ := by
  rcases Nat.lt_or_ge r.stop r.start with inverted | le
  · rw [cut_empty _ _ (by omega), cut_empty _ _ (by dsimp only; omega)]
  have left := @cut_cut _ xs ⟨i, stop⟩ (r.start - i) (r.stop - i) (by dsimp only; omega)
  have right := @cut_cut _ ys ⟨j, stop'⟩ (r.start - i) (r.stop - i) (by dsimp only; omega)
  rw [kept, right] at left
  have same : (⟨i + (r.start - i), i + (r.stop - i)⟩ : Extent) = r := by
    cases r
    simp only [Extent.mk.injEq]
    dsimp only at start le
    omega
  dsimp only at left
  rw [same] at left
  rw [← left]
  congr 2 <;> omega

/-- An extent that no edit meets stands on the other side with the same elements. -/
theorem Between.stands (between : Between xs ys i j es) (start : i ≤ r.start) (le : r.start ≤ r.stop)
    (bound : r.stop ≤ xs.length) (none_ : ∀ e ∈ es, ¬e.Meets r) (hj : j ≤ ys.length) :
    ∃ r', Moved i j es r r' ∧ cut xs r = cut ys r' ∧ r'.stop ≤ ys.length := by
  induction es generalizing i j with
  | nil =>
    have length := congrArg List.length (show xs.drop i = ys.drop j from between)
    simp only [List.length_drop] at length
    refine ⟨⟨r.start + j - i, r.stop + j - i⟩, ⟨?_, ?_⟩, ?_, ?_⟩
    · obtain ⟨gone, come⟩ := @counts_of_behind _ xs ys i j [] r between (.inr rfl)
      dsimp only
      omega
    · dsimp only
      omega
    · refine @cut_shifted _ xs ys i j r xs.length ys.length ?_ (by omega) start bound
      rw [cut_to_end, cut_to_end]
      exact between
    · dsimp only
      omega
  | cons e es ih =>
    have fits := between.1
    have gap := fits.same_gap
    have before_le := fits.before_le
    have after_le := fits.after_le
    have after_stop := fits.after_stop
    by_cases before : e.before.stop ≤ r.start
    · obtain ⟨r', moved, same, inside⟩ := ih between.2 before
        (fun f mem => none_ f (List.mem_cons_of_mem _ mem)) fits.after_stop
      obtain ⟨gone, come⟩ := @counts_cons_of_before e es r before
      have start' := moved.start
      refine ⟨r', ⟨?_, moved.size⟩, same, inside⟩
      rw [gone, come, Extent.size, Extent.size]
      omega
    · have behind : r.stop ≤ e.before.start := by
        have := (e.meets_iff before_le le).not.mp (none_ e List.mem_cons_self)
        omega
      obtain ⟨gone, come⟩ := between.counts_cons_of_behind before
      refine ⟨⟨r.start + j - i, r.stop + j - i⟩, ⟨?_, ?_⟩, cut_shifted fits.kept gap start behind, ?_⟩
      · rw [gone, come]
        dsimp only
        omega
      · dsimp only
        omega
      · dsimp only
        omega

end Between

end ProgressiveReviewer.Library
