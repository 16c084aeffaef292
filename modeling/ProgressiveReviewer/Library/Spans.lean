import Mathlib.Order.Interval.Set.LinearOrder
import Mathlib.Data.List.Basic

/-! Half-open spans over a linear order as sets of points: a span that is empty or inverted
has none, and cutting spans takes their points away. -/

namespace ProgressiveReviewer.Library

variable {α : Type} [LinearOrder α]

/-- The points that some of the spans cover. -/
def points (spans : List (α × α)) : Set α := {x | ∃ span ∈ spans, span.1 ≤ x ∧ x < span.2}

/-- What is left of a piece: a span apart from it leaves it as it is. -/
def cutSpan (cut piece : α × α) : List (α × α) :=
  if cut.2 ≤ piece.1 ∨ piece.2 ≤ cut.1 then [piece]
  else [(piece.1, min cut.1 piece.2), (max cut.2 piece.1, piece.2)].filter fun rest => rest.1 < rest.2

def cutSpans (cuts pieces : List (α × α)) : List (α × α) :=
  cuts.foldl (fun pieces cut => pieces.flatMap (cutSpan cut)) pieces

section Points

variable {cut piece : α × α} {cuts pieces more : List (α × α)} {x : α}

theorem mem_points : x ∈ points pieces ↔ ∃ span ∈ pieces, span.1 ≤ x ∧ x < span.2 := Iff.rfl

@[simp] theorem points_nil : points ([] : List (α × α)) = ∅ := by
  ext x
  simp [points]

theorem mem_points_singleton : x ∈ points [piece] ↔ piece.1 ≤ x ∧ x < piece.2 := by
  simp [points]

theorem mem_points_cons : x ∈ points (piece :: pieces) ↔ (piece.1 ≤ x ∧ x < piece.2) ∨ x ∈ points pieces := by
  simp only [mem_points, List.mem_cons, or_and_right, exists_or, exists_eq_left]

theorem mem_points_flatMap {f : α × α → List (α × α)} :
    x ∈ points (pieces.flatMap f) ↔ ∃ piece ∈ pieces, x ∈ points (f piece) := by
  simp only [mem_points, List.mem_flatMap]
  exact ⟨fun ⟨span, ⟨piece, mem, held⟩, inside⟩ => ⟨piece, mem, span, held, inside⟩,
    fun ⟨piece, mem, span, held, inside⟩ => ⟨span, ⟨piece, mem, held⟩, inside⟩⟩

theorem mem_points_cutSpan : x ∈ points (cutSpan cut piece) ↔
    (piece.1 ≤ x ∧ x < piece.2) ∧ ¬(cut.1 ≤ x ∧ x < cut.2) := by
  unfold cutSpan
  split_ifs with apart
  · rw [mem_points_singleton]
    refine ⟨fun inside => ⟨inside, fun held => ?_⟩, And.left⟩
    rcases apart with before | after
    · exact absurd (held.2.trans_le before) (not_lt.mpr inside.1)
    · exact absurd (inside.2.trans_le after) (not_lt.mpr held.1)
  · simp only [mem_points, List.mem_filter, List.mem_cons, List.not_mem_nil, or_false, decide_eq_true_eq]
    constructor
    · rintro ⟨span, ⟨rfl | rfl, -⟩, starts, stops⟩
      · exact ⟨⟨starts, stops.trans_le (min_le_right _ _)⟩,
          fun held => absurd (stops.trans_le (min_le_left _ _)) (not_lt.mpr held.1)⟩
      · exact ⟨⟨(le_max_right _ _).trans starts, stops⟩,
          fun held => absurd (held.2.trans_le (le_max_left _ _)) (not_lt.mpr starts)⟩
    · rintro ⟨⟨starts, stops⟩, outside⟩
      rcases lt_or_ge x cut.1 with before | after
      · exact ⟨_, ⟨.inl rfl, starts.trans_lt (lt_min before stops)⟩, starts, lt_min before stops⟩
      · have behind : cut.2 ≤ x := not_lt.mp fun inside => outside ⟨after, inside⟩
        exact ⟨_, ⟨.inr rfl, (max_le behind starts).trans_lt stops⟩, max_le behind starts, stops⟩

/-- Cutting takes the points of the cuts away. -/
theorem mem_points_cutSpans :
    x ∈ points (cutSpans cuts pieces) ↔ x ∈ points pieces ∧ x ∉ points cuts := by
  induction cuts generalizing pieces with
  | nil => simp [cutSpans]
  | cons cut cuts ih =>
    have step : cutSpans (cut :: cuts) pieces = cutSpans cuts (pieces.flatMap (cutSpan cut)) := rfl
    rw [step, ih, mem_points_flatMap, mem_points_cons]
    simp only [mem_points_cutSpan]
    constructor
    · rintro ⟨⟨piece, mem, inside, outside⟩, rest⟩
      exact ⟨⟨piece, mem, inside⟩, fun held => held.elim outside rest⟩
    · rintro ⟨⟨piece, mem, inside⟩, rest⟩
      exact ⟨⟨piece, mem, inside, fun held => rest (.inl held)⟩, fun held => rest (.inr held)⟩

/-- Every piece that is left of proper spans is proper. -/
theorem cutSpans_proper (proper : ∀ piece ∈ pieces, piece.1 < piece.2) :
    ∀ piece ∈ cutSpans cuts pieces, piece.1 < piece.2 := by
  induction cuts generalizing pieces with
  | nil => exact proper
  | cons cut cuts ih =>
    refine ih fun piece mem => ?_
    obtain ⟨whole, held, rest⟩ := List.mem_flatMap.mp mem
    unfold cutSpan at rest
    split_ifs at rest
    · rw [List.mem_singleton.mp rest]
      exact proper whole held
    · exact of_decide_eq_true (List.mem_filter.mp rest).2

/-- A span without points is cut as a whole or not at all. -/
theorem cutSpan_hollow (hollow : piece.2 ≤ piece.1) :
    cutSpan cut piece = if cut.1 < piece.2 ∧ piece.1 < cut.2 then [] else [piece] := by
  unfold cutSpan
  by_cases within : cut.1 < piece.2 ∧ piece.1 < cut.2
  · rw [if_pos within, if_neg (by rw [not_or, not_le, not_le]; exact within.symm)]
    refine List.filter_eq_nil_iff.mpr fun rest mem => ?_
    simp only [List.mem_cons, List.not_mem_nil, or_false] at mem
    rw [decide_eq_true_eq, not_lt]
    rcases mem with rfl | rfl
    · exact (min_le_right _ _).trans hollow
    · exact hollow.trans (le_max_right _ _)
  · rw [if_neg within, if_pos]
    rw [not_and_or, not_lt, not_lt] at within
    exact within.symm

theorem cutSpans_hollow_eq_nil (hollow : piece.2 ≤ piece.1) :
    cutSpans cuts [piece] = [] ↔ ∃ cut ∈ cuts, cut.1 < piece.2 ∧ piece.1 < cut.2 := by
  have nothing : ∀ cuts, cutSpans cuts ([] : List (α × α)) = [] := fun cuts => by
    induction cuts with
    | nil => rfl
    | cons cut cuts ih => exact ih
  induction cuts with
  | nil => simp [cutSpans]
  | cons cut cuts ih =>
    have step : cutSpans (cut :: cuts) [piece] = cutSpans cuts (cutSpan cut piece) := by
      simp [cutSpans]
    rw [step, cutSpan_hollow hollow]
    split_ifs with within
    · exact iff_of_true (nothing cuts) ⟨cut, List.mem_cons_self .., within⟩
    · refine ih.trans ?_
      simp only [List.mem_cons, exists_eq_or_imp, within, false_or]

/-- A proper span is cut away when all its points are. -/
theorem cutSpans_proper_eq_nil (proper : piece.1 < piece.2) :
    cutSpans cuts [piece] = [] ↔ ∀ x, piece.1 ≤ x → x < piece.2 → x ∈ points cuts := by
  constructor
  · intro gone x starts stops
    by_contra outside
    have left : x ∈ points (cutSpans cuts [piece]) :=
      mem_points_cutSpans.mpr ⟨mem_points_singleton.mpr ⟨starts, stops⟩, outside⟩
    rw [gone, points_nil] at left
    exact left
  · intro covered
    refine List.eq_nil_iff_forall_not_mem.mpr fun rest mem => ?_
    have some_ := @cutSpans_proper _ _ cuts [piece] (by simpa using proper) rest mem
    have left : rest.1 ∈ points (cutSpans cuts [piece]) := ⟨rest, mem, le_rfl, some_⟩
    obtain ⟨inside, outside⟩ := mem_points_cutSpans.mp left
    obtain ⟨starts, stops⟩ := mem_points_singleton.mp inside
    exact outside (covered _ starts stops)

end Points

end ProgressiveReviewer.Library
