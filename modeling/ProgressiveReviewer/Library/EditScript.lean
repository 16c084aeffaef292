import Mathlib.Data.List.Basic
import Mathlib.Tactic.Common

/-! Edit scripts between two lists: which extents of the first list are replaced
by which extents of the second, in order, everything outside them being equal.
A script places each extent that no edit touches on the other side. Nothing here
knows what the list elements are. -/

namespace ProgressiveReviewer.Library

/-- A half-open extent of list positions. -/
structure Extent where
  start : Nat
  stop : Nat
  deriving DecidableEq, Repr

namespace Extent

def size (r : Extent) : Nat := r.stop - r.start

def isEmpty (r : Extent) : Bool := !(decide (r.start < r.stop))

def cut {α : Type*} (xs : List α) (r : Extent) : List α :=
  (xs.drop r.start).take (r.stop - r.start)

/-- Two extents have nothing in common. An empty extent sits between two
positions, so it must also stay clear of the extents that end or start there. -/
def Apart (a b : Extent) : Prop :=
  if a.stop ≤ a.start ∨ b.stop ≤ b.start then a.stop < b.start ∨ b.stop < a.start
  else a.stop ≤ b.start ∨ b.stop ≤ a.start

instance (a b : Extent) : Decidable (Apart a b) := by
  unfold Apart; infer_instance

@[simp] theorem isEmpty_eq_true (r : Extent) : r.isEmpty = true ↔ r.stop ≤ r.start := by
  simp [isEmpty]

theorem cut_length {α : Type*} (xs : List α) (r : Extent) (h : r.stop ≤ xs.length) :
    (r.cut xs).length = r.size := by
  simp only [cut, size, List.length_take, List.length_drop]
  omega

theorem cut_empty {α : Type*} (xs : List α) (r : Extent) (h : r.stop ≤ r.start) :
    r.cut xs = [] := by
  simp [cut, Nat.sub_eq_zero_of_le h]

theorem cut_append_cut {α : Type*} (xs : List α) {a b c : Nat} (hab : a ≤ b) (hbc : b ≤ c) :
    cut xs ⟨a, b⟩ ++ cut xs ⟨b, c⟩ = cut xs ⟨a, c⟩ := by
  have hc : c - a = (b - a) + (c - b) := by omega
  have hd : xs.drop b = (xs.drop a).drop (b - a) := by
    rw [List.drop_drop]
    congr 1
    omega
  simp only [cut, hc, hd, List.take_add]

theorem cut_append_drop {α : Type*} (xs : List α) {a b : Nat} (hab : a ≤ b) :
    cut xs ⟨a, b⟩ ++ xs.drop b = xs.drop a := by
  have hd : xs.drop b = (xs.drop a).drop (b - a) := by
    rw [List.drop_drop]
    congr 1
    omega
  rw [cut, hd, List.take_append_drop]

theorem cut_getElem? {α : Type*} (xs : List α) (r : Extent) (n : Nat) :
    (r.cut xs)[n]? = if n < r.stop - r.start then xs[r.start + n]? else none := by
  simp only [cut, List.getElem?_take, List.getElem?_drop]

theorem cut_cut {α : Type*} (xs : List α) (r : Extent) {a b : Nat} (h : r.start + b ≤ r.stop) :
    cut (r.cut xs) ⟨a, b⟩ = cut xs ⟨r.start + a, r.start + b⟩ := by
  apply List.ext_getElem?
  intro n
  have shift : r.start + (a + n) = r.start + a + n := by omega
  have size : r.start + b - (r.start + a) = b - a := by omega
  simp only [cut_getElem?, shift, size]
  by_cases small : n < b - a
  · rw [if_pos small, if_pos (by omega), if_pos small]
  · rw [if_neg small, if_neg small]

theorem cut_to_end {α : Type*} (xs : List α) (i : Nat) : cut xs ⟨i, xs.length⟩ = xs.drop i :=
  List.take_of_length_le (by simp)

/-- Whether a position lies in an extent. -/
def holds (r : Extent) (n : Nat) : Bool := decide (r.start ≤ n) && decide (n < r.stop)

/-- The positions of an extent, in order. -/
def positions (r : Extent) : List Nat := List.range' r.start (r.stop - r.start)

@[simp] theorem holds_iff (r : Extent) (n : Nat) :
    r.holds n = true ↔ r.start ≤ n ∧ n < r.stop := by
  simp [holds]

@[simp] theorem mem_positions (r : Extent) (n : Nat) :
    n ∈ r.positions ↔ r.start ≤ n ∧ n < r.stop := by
  simp only [positions, List.mem_range'_1]
  omega

theorem positions_sorted (r : Extent) : r.positions.Pairwise (· < ·) := List.pairwise_lt_range'

theorem positions_length (r : Extent) : r.positions.length = r.size := List.length_range'

theorem cut_eq_positions {α : Type*} (xs : List α) (r : Extent) (h : r.stop ≤ xs.length) :
    (r.cut xs).map some = r.positions.map fun n => xs[n]? := by
  apply List.ext_getElem?
  intro n
  simp only [List.getElem?_map, cut_getElem?, positions]
  by_cases small : n < r.stop - r.start
  · rw [if_pos small, List.getElem?_range' small, List.getElem?_eq_getElem (by omega)]
    simp
  · rw [if_neg small, List.getElem?_eq_none (by simpa using Nat.le_of_not_lt small)]
    rfl

theorem zip_positions {α : Type*} (fallback : α) (xs : List α) (r : Extent)
    (h : r.stop ≤ xs.length) :
    r.positions.zip (r.cut xs) = r.positions.map fun n => (n, (xs[n]?).getD fallback) := by
  have same : r.cut xs = r.positions.map fun n => (xs[n]?).getD fallback := by
    have all := congrArg (List.map fun a => Option.getD a fallback) (cut_eq_positions xs r h)
    simpa [Function.comp_def] using all
  rw [same]
  generalize r.positions = ns
  induction ns with
  | nil => rfl
  | cons n ns ih => simp [ih]

end Extent

open Extent

/-- One edit: the extent it replaces and the extent it puts there. -/
structure Edit where
  before : Extent
  after : Extent
  deriving DecidableEq, Repr

def Edit.swap (e : Edit) : Edit := ⟨e.after, e.before⟩

@[simp] theorem Edit.swap_before (e : Edit) : e.swap.before = e.after := rfl
@[simp] theorem Edit.swap_after (e : Edit) : e.swap.after = e.before := rfl
@[simp] theorem Edit.swap_swap (e : Edit) : e.swap.swap = e := rfl

variable {α : Type*}

/-- `e` is an edit of a script that has used up `i` positions of `xs` and `j` of
`ys`: at least `gap` equal elements come first, then `e` replaces something. -/
structure Edit.Fits (xs ys : List α) (gap i j : Nat) (e : Edit) : Prop where
  before_start : i + gap ≤ e.before.start
  after_start : j + gap ≤ e.after.start
  same_gap : e.before.start + j = e.after.start + i
  kept : cut xs ⟨i, e.before.start⟩ = cut ys ⟨j, e.after.start⟩
  before_le : e.before.start ≤ e.before.stop
  after_le : e.after.start ≤ e.after.stop
  before_stop : e.before.stop ≤ xs.length
  after_stop : e.after.stop ≤ ys.length
  nonempty : e.before.start < e.before.stop ∨ e.after.start < e.after.stop

/-- The edits `es`, in order, turn `xs` from position `i` on into `ys` from
position `j` on; each edit comes at least one kept element after the one before
it, and the first at least `gap` after the start. -/
def ScriptFrom (xs ys : List α) : Nat → Nat → Nat → List Edit → Prop
  | _, i, j, [] => xs.drop i = ys.drop j
  | gap, i, j, e :: es => e.Fits xs ys gap i j ∧ ScriptFrom xs ys 1 e.before.stop e.after.stop es

/-- Ordered, disjoint, non-empty edits that at least one kept element separates,
with equal elements outside them. -/
def Script (xs ys : List α) (es : List Edit) : Prop := ScriptFrom xs ys 0 0 0 es

instance [DecidableEq α] (xs ys : List α) (gap i j : Nat) (e : Edit) :
    Decidable (e.Fits xs ys gap i j) :=
  decidable_of_iff
    (i + gap ≤ e.before.start ∧ j + gap ≤ e.after.start ∧
      e.before.start + j = e.after.start + i ∧
      cut xs ⟨i, e.before.start⟩ = cut ys ⟨j, e.after.start⟩ ∧
      e.before.start ≤ e.before.stop ∧ e.after.start ≤ e.after.stop ∧
      e.before.stop ≤ xs.length ∧ e.after.stop ≤ ys.length ∧
      (e.before.start < e.before.stop ∨ e.after.start < e.after.stop))
    ⟨fun ⟨a, b, c, d, e, f, g, h, i⟩ => ⟨a, b, c, d, e, f, g, h, i⟩,
      fun ⟨a, b, c, d, e, f, g, h, i⟩ => ⟨a, b, c, d, e, f, g, h, i⟩⟩

instance decidableScriptFrom [DecidableEq α] (xs ys : List α) :
    (gap i j : Nat) → (es : List Edit) → Decidable (ScriptFrom xs ys gap i j es)
  | _, i, j, [] => inferInstanceAs (Decidable (xs.drop i = ys.drop j))
  | gap, i, j, e :: es =>
    have := decidableScriptFrom xs ys 1 e.before.stop e.after.stop es
    inferInstanceAs (Decidable (e.Fits xs ys gap i j ∧
      ScriptFrom xs ys 1 e.before.stop e.after.stop es))

instance [DecidableEq α] (xs ys : List α) (es : List Edit) : Decidable (Script xs ys es) :=
  decidableScriptFrom xs ys 0 0 0 es

theorem Edit.Fits.swap {xs ys : List α} {gap i j : Nat} {e : Edit}
    (h : e.Fits xs ys gap i j) : e.swap.Fits ys xs gap j i :=
  ⟨h.after_start, h.before_start, h.same_gap.symm, h.kept.symm, h.after_le, h.before_le,
    h.after_stop, h.before_stop, h.nonempty.symm⟩

theorem ScriptFrom.swap {xs ys : List α} {gap i j : Nat} {es : List Edit}
    (h : ScriptFrom xs ys gap i j es) : ScriptFrom ys xs gap j i (es.map Edit.swap) := by
  induction es generalizing gap i j with
  | nil => exact Eq.symm h
  | cons e es ih => exact ⟨h.1.swap, ih h.2⟩

theorem Script.swap {xs ys : List α} {es : List Edit} (h : Script xs ys es) :
    Script ys xs (es.map Edit.swap) := ScriptFrom.swap h

/-- Every edit of a script lies inside both lists and starts after the positions used up. -/
theorem ScriptFrom.bounds {xs ys : List α} {gap i j : Nat} {es : List Edit}
    (h : ScriptFrom xs ys gap i j es) {e : Edit} (mem : e ∈ es) :
    i + gap ≤ e.before.start ∧ j + gap ≤ e.after.start ∧
      e.before.start ≤ e.before.stop ∧ e.after.start ≤ e.after.stop ∧
      e.before.stop ≤ xs.length ∧ e.after.stop ≤ ys.length ∧
      (e.before.start < e.before.stop ∨ e.after.start < e.after.stop) := by
  induction es generalizing gap i j with
  | nil => cases mem
  | cons f es ih =>
    have fit := h.1
    rcases List.mem_cons.mp mem with rfl | mem
    · exact ⟨fit.before_start, fit.after_start, fit.before_le, fit.after_le,
        fit.before_stop, fit.after_stop, fit.nonempty⟩
    · have later := ih h.2 mem
      have := fit.before_start
      have := fit.after_start
      have := fit.before_le
      have := fit.after_le
      exact ⟨by omega, by omega, later.2.2⟩

/-- The edits of a script come in order, each at least one kept element after the one before. -/
theorem ScriptFrom.pairwise {xs ys : List α} {gap i j : Nat} {es : List Edit}
    (h : ScriptFrom xs ys gap i j es) :
    es.Pairwise fun a b => a.before.stop < b.before.start ∧ a.after.stop < b.after.start := by
  induction es generalizing gap i j with
  | nil => exact List.Pairwise.nil
  | cons e es ih =>
    refine List.Pairwise.cons (fun f mem => ?_) (ih h.2)
    have later := h.2.bounds mem
    omega

theorem ScriptFrom.lengths {xs ys : List α} {gap i j : Nat} {es : List Edit}
    (h : ScriptFrom xs ys gap i j es) (hi : i ≤ xs.length) (hj : j ≤ ys.length) :
    (es = [] → xs.length + j = ys.length + i) := by
  rintro rfl
  have := congrArg List.length (show xs.drop i = ys.drop j from h)
  simp only [List.length_drop] at this
  omega

/-! Neighbouring edits read as one edit that also replaces what they keep between
them. -/

def Edit.join (a b : Edit) : Edit :=
  ⟨⟨a.before.start, b.before.stop⟩, ⟨a.after.start, b.after.stop⟩⟩

def hull (e : Edit) (es : List Edit) : Edit := es.foldl Edit.join e

@[simp] theorem hull_nil (e : Edit) : hull e [] = e := rfl

theorem hull_concat (e : Edit) (es : List Edit) (f : Edit) :
    hull e (es ++ [f]) = (hull e es).join f := by
  simp [hull]

theorem ScriptFrom.join {xs ys : List α} {gap i j : Nat} {e f : Edit} {es : List Edit}
    (h : ScriptFrom xs ys gap i j (e :: f :: es)) : ScriptFrom xs ys gap i j (e.join f :: es) := by
  have first := h.1
  have second := h.2.1
  have := first.before_le
  have := first.after_le
  have := second.before_start
  have := second.after_start
  have := second.before_le
  have := second.after_le
  have stop := second.before_stop
  have stop' := second.after_stop
  exact ⟨⟨first.before_start, first.after_start, first.same_gap, first.kept,
    by dsimp only [Edit.join]; omega, by dsimp only [Edit.join]; omega, stop, stop',
    Or.inl (by dsimp only [Edit.join]; omega)⟩, h.2.2⟩

theorem ScriptFrom.hull {xs ys : List α} {gap i j : Nat} {e : Edit} {es post : List Edit}
    (h : ScriptFrom xs ys gap i j (e :: es ++ post)) :
    ScriptFrom xs ys gap i j (hull e es :: post) := by
  induction es generalizing e with
  | nil => exact h
  | cons f es ih => exact ih h.join

theorem ScriptFrom.hull_within {xs ys : List α} {gap i j : Nat} {e : Edit}
    {pre es post : List Edit} (h : ScriptFrom xs ys gap i j (pre ++ e :: es ++ post)) :
    ScriptFrom xs ys gap i j (pre ++ Library.hull e es :: post) := by
  induction pre generalizing gap i j with
  | nil => exact ScriptFrom.hull h
  | cons f pre ih => exact ⟨h.1, ih h.2⟩

/-- A script without edits is one between equal lists. -/
theorem Script.nil_iff {xs ys : List α} : Script xs ys [] ↔ xs = ys := Iff.rfl

/-! A script with one edit: what is left without the longest common start and, after
it, the longest common end. -/

def commonStart [DecidableEq α] : List α → List α → Nat
  | a :: as, b :: bs => if a = b then commonStart as bs + 1 else 0
  | _, _ => 0

theorem take_commonStart [DecidableEq α] (xs ys : List α) :
    xs.take (commonStart xs ys) = ys.take (commonStart xs ys) := by
  fun_induction commonStart xs ys with
  | case1 a as bs ih => simpa using ih
  | case2 => rfl
  | case3 => rfl

theorem commonStart_le [DecidableEq α] (xs ys : List α) :
    commonStart xs ys ≤ xs.length ∧ commonStart xs ys ≤ ys.length := by
  fun_induction commonStart xs ys with
  | case1 a as bs ih => simpa using ih
  | case2 => simp
  | case3 => simp

def commonEnd [DecidableEq α] (xs ys : List α) : Nat := commonStart xs.reverse ys.reverse

theorem drop_commonEnd [DecidableEq α] (xs ys : List α) :
    xs.drop (xs.length - commonEnd xs ys) = ys.drop (ys.length - commonEnd xs ys) := by
  have h := congrArg List.reverse (take_commonStart xs.reverse ys.reverse)
  simpa [commonEnd, List.take_reverse] using h

def trimmedEdits [DecidableEq α] (xs ys : List α) : List Edit :=
  let first := commonStart xs ys
  let last := commonEnd (xs.drop first) (ys.drop first)
  if xs = ys then [] else [⟨⟨first, xs.length - last⟩, ⟨first, ys.length - last⟩⟩]

theorem trimmedEdits_script [DecidableEq α] (xs ys : List α) :
    Script xs ys (trimmedEdits xs ys) := by
  unfold trimmedEdits
  split_ifs with same
  · exact congrArg _ same
  · set first := commonStart xs ys with hf
    set last := commonEnd (xs.drop first) (ys.drop first) with hl
    have start := commonStart_le xs ys
    have finish := commonStart_le (xs.drop first).reverse (ys.drop first).reverse
    simp only [List.length_reverse, List.length_drop] at finish
    have heads : xs.take first = ys.take first := take_commonStart xs ys
    have tails := drop_commonEnd (xs.drop first) (ys.drop first)
    rw [← hl] at tails
    have hx : first + (xs.length - first - last) = xs.length - last := by
      have : last ≤ xs.length - first := finish.1
      omega
    have hy : first + (ys.length - first - last) = ys.length - last := by
      have : last ≤ ys.length - first := finish.2
      omega
    simp only [List.drop_drop, List.length_drop, hx, hy] at tails
    have lastLeX : last ≤ xs.length - first := finish.1
    have lastLeY : last ≤ ys.length - first := finish.2
    refine ⟨⟨by simp, by simp, by simp, ?_, ?_, ?_, by simp, by simp, ?_⟩, tails⟩
    · simpa [cut] using heads
    · show first ≤ xs.length - last
      omega
    · show first ≤ ys.length - last
      omega
    · by_contra none_left
      simp only [not_or, Nat.not_lt] at none_left
      apply same
      have ex : xs.length - last = first := by omega
      have ey : ys.length - last = first := by omega
      rw [ex, ey] at tails
      rw [← List.take_append_drop first xs, ← List.take_append_drop first ys, heads, tails]

@[simp] theorem trimmedEdits_self [DecidableEq α] (xs : List α) : trimmedEdits xs xs = [] := by
  simp [trimmedEdits]

end ProgressiveReviewer.Library
