import Mathlib.Algebra.Ring.Int.Defs
import ProgressiveReviewer.Hunks.Text
import ProgressiveReviewer.Library.Edits
import ProgressiveReviewer.Library.Outcomes

/-! How the lines a comment is anchored to move through later edits (`review-source/src/lib.rs`).
Shifts are 64-bit integers, and leaving their range is a panic. -/

namespace ProgressiveReviewer.Anchors

open Library Library.Extent Hunks

/-- Line numbers are smaller: they have 32 bits. -/
def lineBound : Nat := 2 ^ 32

/-- The result of an operation on 64-bit integers. -/
def i64 (n : Int) : Outcome Unit Int := if -2 ^ 63 ≤ n ∧ n < 2 ^ 63 then .ok n else .panicked

def checkedAdd (n shift : Int) : Option Int :=
  if -2 ^ 63 ≤ n + shift ∧ n + shift < 2 ^ 63 then some (n + shift) else none

def toLine (n : Int) : Option Nat := if 0 ≤ n ∧ n < lineBound then some n.toNat else none

/-- The shift behind one more edit. -/
def shiftBy (shift : Int) (edit : Change) : Outcome Unit Int := do
  let grown ← Outcome.minus edit.after.stop edit.after.start
  let gone ← Outcome.minus edit.before.stop edit.before.start
  i64 (shift + (← i64 (grown - gone)))

/-- How far an interval moves, unless an edit meets it. -/
def shiftOf (source : Range) : List Change → Int → Outcome Unit (Option Int)
  | [], shift => .ok (some shift)
  | edit :: edits, shift =>
    if edit.before.stop ≤ source.start then do shiftOf source edits (← shiftBy shift edit)
    else if source.stop ≤ edit.before.start then .ok (some shift)
    else .ok none

def transformInterval (source : Range) (edits : List Change) : Outcome Unit (Option Range) := do
  let shift ← shiftOf source edits 0
  return do
    let shift ← shift
    let start ← (checkedAdd source.start shift).bind toLine
    let stop ← (checkedAdd source.stop shift).bind toLine
    return ⟨start, stop⟩

/-- The lines of a thread's source, with the content they stood in. -/
structure DiffRangeAnchor where
  oldLines : Option Range
  newLines : Option Range
  oldContent : Option Bytes
  newContent : Option Bytes
  deriving DecidableEq, Repr

structure FrozenHunk where
  old : Option Range
  new : Option Range
  deriving DecidableEq, Repr

/-- One side of an anchor; an error when its lines cannot be followed. -/
def mapSide (d : Differ) (interval : Option Range) (sourceContent currentContent : Option Bytes) :
    Outcome Unit (Option Range) :=
  match interval with
  | none => .ok none
  | some interval => do
    let source ← Outcome.okOr () sourceContent
    let current ← Outcome.okOr () currentContent
    let range ← Outcome.okOr () (← transformInterval interval (d.changes source current))
    return some range

namespace DiffRangeAnchor

variable (anchor : DiffRangeAnchor) (d : Differ)

/-- Both intervals through the edits, only while the anchored code is unchanged. -/
def mapLines (oldContent newContent : Option Bytes) : Outcome Unit FrozenHunk := do
  let old ← mapSide d anchor.oldLines anchor.oldContent oldContent
  let new ← mapSide d anchor.newLines anchor.newContent newContent
  return ⟨old, new⟩

end DiffRangeAnchor

section Follow

variable {α : Type} {xs ys : List α} {i j : Nat} {source : Range} {edits : List Change}

theorem i64_eq {n : Int} (low : -2 ^ 63 ≤ n) (high : n < 2 ^ 63) : i64 n = .ok n := if_pos ⟨low, high⟩

theorem shiftBy_eq {edit : Change} {gap : Nat} (fits : edit.Fits xs ys gap i j) (hx : xs.length < lineBound)
    (hy : ys.length < lineBound) :
    shiftBy (j - i) edit = .ok (edit.after.stop - edit.before.stop : Int) := by
  have gap := fits.same_gap
  have before_le := fits.before_le
  have after_le := fits.after_le
  have before_stop := fits.before_stop
  have after_stop := fits.after_stop
  unfold lineBound at hx hy
  rw [shiftBy, Outcome.minus_of_le after_le, Outcome.ok_bind, Outcome.minus_of_le before_le,
    Outcome.ok_bind, i64_eq (by omega) (by omega), Outcome.ok_bind, i64_eq (by omega) (by omega)]
  congr 1
  omega

/-- The loop finds the edit that meets the interval, or the shift of the edits before it. -/
theorem shiftOf_eq (between : Between xs ys i j edits) (le : source.start ≤ source.stop)
    (start : i ≤ source.start) (hx : xs.length < lineBound) (hy : ys.length < lineBound) :
    (∃ edit ∈ edits, edit.Meets source) ∧ shiftOf source edits (j - i) = .ok none ∨
      (∀ edit ∈ edits, ¬edit.Meets source) ∧ shiftOf source edits (j - i) =
        .ok (some (j - i + comeBefore source edits - goneBefore source edits : Int)) := by
  induction edits generalizing i j with
  | nil =>
    refine .inr ⟨fun _ mem => (List.not_mem_nil mem).elim, ?_⟩
    rw [shiftOf]
    congr 2
    simp [comeBefore, goneBefore]
  | cons edit edits ih =>
    have fits := between.1
    rw [shiftOf]
    have met := edit.meets_iff fits.before_le le
    by_cases before : edit.before.stop ≤ source.start
    · rw [if_pos before, shiftBy_eq fits hx hy, Outcome.ok_bind]
      have free : ¬edit.Meets source := fun meets => (met.mp meets).1 before
      obtain ⟨gone, come⟩ := @counts_cons_of_before edit edits source before
      rcases ih between.2 before with ⟨⟨other, mem, meets⟩, ran⟩ | ⟨none_, ran⟩
      · exact .inl ⟨⟨other, List.mem_cons_of_mem _ mem, meets⟩, ran⟩
      · refine .inr ⟨List.forall_mem_cons.mpr ⟨free, none_⟩, ran.trans ?_⟩
        have gap := fits.same_gap
        have before_le := fits.before_le
        have after_le := fits.after_le
        rw [gone, come, Extent.size, Extent.size]
        congr 2
        omega
    · rw [if_neg before]
      by_cases behind : source.stop ≤ edit.before.start
      · obtain ⟨gone, come⟩ := between.counts_cons_of_behind before
        rw [if_pos behind, gone, come]
        refine .inr ⟨List.forall_mem_cons.mpr ⟨fun meets => (met.mp meets).2 behind,
          between.2.meets_none le (Nat.le_trans behind fits.before_le)⟩, ?_⟩
        congr 2
        omega
      · rw [if_neg behind]
        exact .inl ⟨⟨edit, List.mem_cons_self, met.mpr ⟨before, behind⟩⟩, rfl⟩

/-- The interval moves by what the edits before it put in and take away, unless one meets it. -/
theorem transformInterval_eq (between : Between xs ys 0 0 edits) (le : source.start ≤ source.stop)
    (bound : source.stop ≤ xs.length) (hx : xs.length < lineBound) (hy : ys.length < lineBound) :
    ((∃ edit ∈ edits, edit.Meets source) ∧ transformInterval source edits = .ok none) ∨
      (∀ edit ∈ edits, ¬edit.Meets source) ∧ ∃ range, transformInterval source edits = .ok (some range) ∧
        Moved 0 0 edits source range ∧ source.cut xs = range.cut ys ∧ range.stop ≤ ys.length := by
  rcases shiftOf_eq between le (Nat.zero_le _) hx hy with ⟨met, ran⟩ | ⟨none_, ran⟩
  · refine .inl ⟨met, ?_⟩
    rw [transformInterval, show (0 : Int) = ((0 : Nat) : Int) - ((0 : Nat) : Int) by rfl, ran]
    rfl
  · obtain ⟨range, moved, same, inside⟩ := between.stands (Nat.zero_le _) le bound none_ (Nat.zero_le _)
    refine .inr ⟨none_, range, ?_, moved, same, inside⟩
    rw [transformInterval, show (0 : Int) = ((0 : Nat) : Int) - ((0 : Nat) : Int) by rfl, ran]
    have start := moved.start
    have size := moved.size
    unfold lineBound at hx hy
    have first : (checkedAdd source.start (((0 : Nat) : Int) - ((0 : Nat) : Int) + comeBefore source edits -
        goneBefore source edits)).bind toLine = some range.start := by
      rw [checkedAdd, if_pos (by omega), Option.bind_some, toLine, lineBound, if_pos (by omega)]
      congr 1
      omega
    have last : (checkedAdd source.stop (((0 : Nat) : Int) - ((0 : Nat) : Int) + comeBefore source edits -
        goneBefore source edits)).bind toLine = some range.stop := by
      rw [checkedAdd, if_pos (by omega), Option.bind_some, toLine, lineBound, if_pos (by omega)]
      congr 1
      omega
    simp only [Outcome.ok_bind, Option.bind_eq_bind, Option.bind_some, first, last]
    rfl

/-- What one side of an anchor is mapped to. -/
def Follows (d : Differ) (interval : Option Range) (sourceContent currentContent : Option Bytes)
    (mapped : Option Range) : Prop :=
  match interval with
  | none => mapped = none
  | some interval => ∃ source current range, sourceContent = some source ∧ currentContent = some current ∧
      transformInterval interval (d.changes source current) = .ok (some range) ∧ mapped = some range

theorem mapSide_eq_ok {d : Differ} {interval mapped : Option Range} {sourceContent currentContent : Option Bytes} :
    mapSide d interval sourceContent currentContent = .ok mapped ↔
      Follows d interval sourceContent currentContent mapped := by
  cases interval with
  | none => exact ⟨fun same => (Outcome.ok.inj same).symm, fun same => congrArg Outcome.ok (Eq.symm same)⟩
  | some interval =>
    have given {α : Type} {value : Option α} {a : α} : Outcome.okOr () value = .ok a ↔ value = some a := by
      cases value <;> simp [Outcome.okOr]
    simp only [mapSide, Outcome.bind_eq_ok, given, Follows]
    constructor
    · rintro ⟨source, given, current, given', _, ran, range, rfl, same⟩
      exact ⟨source, current, range, given, given', ran, (Outcome.ok.inj same).symm⟩
    · rintro ⟨source, current, range, given, given', ran, rfl⟩
      exact ⟨source, given, current, given', _, ran, range, rfl, rfl⟩

/-- An anchor follows its own lines, or is dropped when an edit meets them. -/
theorem anchor_follows (between : Between xs ys 0 0 edits) (le : source.start ≤ source.stop)
    (bound : source.stop ≤ xs.length) (hx : xs.length < lineBound) (hy : ys.length < lineBound) :
    (∃ result, transformInterval source edits = .ok result ∧
      (result = none ↔ ∃ edit ∈ edits, edit.Meets source) ∧
      (∀ range, result = some range → range.cut ys = source.cut xs ∧ range.size = source.size ∧
        range.stop ≤ ys.length ∧
        range.start + goneBefore source edits = source.start + comeBefore source edits) ∧
      ∀ edit ∈ edits, edit.before.size = 0 →
        edit.before.start = source.start ∨ edit.before.start = source.stop → ¬edit.Meets source) ∧
    ∀ (d : Differ) (anchor : DiffRangeAnchor) (oldContent newContent : Option Bytes) (mapped : FrozenHunk),
      anchor.mapLines d oldContent newContent = .ok mapped ↔
        Follows d anchor.oldLines anchor.oldContent oldContent mapped.old ∧
          Follows d anchor.newLines anchor.newContent newContent mapped.new := by
  constructor
  · have edges : ∀ edit ∈ edits, edit.before.size = 0 →
        edit.before.start = source.start ∨ edit.before.start = source.stop → ¬edit.Meets source := by
      intro edit mem empty edge meets
      have bounds := (between.starts mem).2
      have := (edit.meets_iff bounds le).mp meets
      rw [Extent.size] at empty
      omega
    rcases transformInterval_eq between le bound hx hy with ⟨met, ran⟩ | ⟨none_, range, ran, moved, same, inside⟩
    · exact ⟨none, ran, iff_of_true rfl met, ⟨fun _ absent => (by cases absent), edges⟩⟩
    · have apart : ¬∃ edit ∈ edits, edit.Meets source := by
        rintro ⟨edit, mem, meets⟩
        exact none_ edit mem meets
      refine ⟨some range, ran, iff_of_false (Option.some_ne_none _) apart, ⟨?_, edges⟩⟩
      intro _ held
      obtain rfl := Option.some.inj held
      have size := moved.size
      have start := moved.start
      exact ⟨same.symm, by rw [Extent.size, Extent.size]; omega, inside, by omega⟩
  · intro d anchor oldContent newContent mapped
    simp only [DiffRangeAnchor.mapLines, Outcome.bind_eq_ok, mapSide_eq_ok]
    constructor
    · rintro ⟨old, followed, new, followed', same⟩
      cases same
      exact ⟨followed, followed'⟩
    · rintro ⟨followed, followed'⟩
      exact ⟨_, followed, _, followed', rfl⟩

/-- A line in front of the anchored one moves it. -/
theorem anchor_follows_insertion :
    let before : Lines := [[98]]
    let after : Lines := [[97], [98]]
    let edits : List Change := [⟨⟨0, 0⟩, ⟨0, 1⟩⟩]
    transformInterval ⟨0, 1⟩ edits = .ok (some ⟨1, 2⟩) ∧
      Extent.cut after ⟨1, 2⟩ = Extent.cut before ⟨0, 1⟩ := by
  intro before after edits
  have between : Between before after 0 0 edits := by
    have script : Script before after edits := by decide
    exact script.between
  obtain ⟨⟨result, ran, -, follows, -⟩, -⟩ :=
    @anchor_follows _ before after ⟨0, 1⟩ edits between (by decide) (by decide) (by decide) (by decide)
  have moved : transformInterval ⟨0, 1⟩ edits = .ok (some ⟨1, 2⟩) := rfl
  rw [moved] at ran
  exact ⟨moved, (follows _ (Outcome.ok.inj ran).symm).1⟩

end Follow

end ProgressiveReviewer.Anchors
