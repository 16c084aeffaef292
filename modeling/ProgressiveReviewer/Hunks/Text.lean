import Mathlib.Algebra.Ring.Nat
import ProgressiveReviewer.Library.Placement
import ProgressiveReviewer.Library.LineText

/-! Line views of one file version and the edits between two versions
(`review-hunks/src/text.rs`). Line numbers are natural numbers: the 32-bit bound of
the source is never reached by a file the differ accepts. The differ itself is not
part of the repository, so it is a parameter here. -/

namespace ProgressiveReviewer.Hunks

open Library Library.Extent

/-- The content of one file version. -/
abbrev Bytes := List UInt8

instance : LawfulBEq Bytes := inferInstanceAs (LawfulBEq (List UInt8))

/-- Zero-based lines, without the line `stop`. -/
abbrev Range := Extent

/-- Lines of the before version replaced by lines of the after version. -/
abbrev Change := Edit

/-- Unchanged lines shown around each change, as Git shows them. -/
def context : Nat := 3

def isNewline (byte : UInt8) : Bool := byte == 10

/-- One file version split into lines that keep their terminators. -/
abbrev Lines := List Bytes

def Lines.new (text : Bytes) : Lines := splitInclusive isNewline text

def Lines.line (lines : Lines) (index : Nat) : Option Bytes := lines[index]?

def Lines.get (lines : Lines) (range : Range) : Option (List Bytes) :=
  if range.start ≤ range.stop ∧ range.stop ≤ lines.length then some (range.cut lines) else none

/-- Lines from `index` to the end. -/
def Lines.rest (lines : Lines) (index : Nat) : Option (List Bytes) :=
  lines.get ⟨index, lines.length⟩

@[simp] theorem Lines.flatten_new (text : Bytes) : (Lines.new text).flatten = text :=
  flatten_splitInclusive text

theorem Lines.lineList_new (text : Bytes) : LineList isNewline (Lines.new text) :=
  lineList_splitInclusive text

/-- Consecutive lines of a text are the lines of what they spell. -/
theorem Lines.new_cut (text : Bytes) (range : Range) :
    Lines.new (range.cut (Lines.new text)).flatten = range.cut (Lines.new text) :=
  splitInclusive_flatten ((Lines.lineList_new text).cut range)

theorem Lines.new_injective {a b : Bytes} (h : Lines.new a = Lines.new b) : a = b :=
  splitInclusive_injective h

theorem Lines.get_eq_some {lines : Lines} {range : Range} (le : range.start ≤ range.stop)
    (bound : range.stop ≤ lines.length) : lines.get range = some (range.cut lines) :=
  if_pos ⟨le, bound⟩

/-- The external line differ. -/
structure Differ where
  /-- The line edits that turn `before` into `after`. -/
  changes (before after : Bytes) : List Change

/-- What the differ promises: ordered, disjoint, non-empty edits that at least one
unchanged line separates, and byte-equal lines outside them. -/
def Differ.Valid (d : Differ) : Prop :=
  ∀ before after, Script (Lines.new before) (Lines.new after) (d.changes before after)

/-- The differ finds no edit between equal texts. -/
def Differ.Quiet (d : Differ) : Prop := ∀ text, d.changes text text = []

/-- The differ that replaces what two versions do not start and end with. -/
def trimmedDiffer : Differ where
  changes before after := trimmedEdits (Lines.new before) (Lines.new after)

theorem trimmedDiffer_valid : trimmedDiffer.Valid :=
  fun before after => trimmedEdits_script (Lines.new before) (Lines.new after)

theorem trimmedDiffer_quiet : trimmedDiffer.Quiet := fun text => trimmedEdits_self (Lines.new text)

/-- The differ that answers some pairs of versions as listed. -/
def tableDiffer (table : List ((Bytes × Bytes) × List Change)) : Differ where
  changes before after :=
    (table.lookup (before, after)).getD (trimmedEdits (Lines.new before) (Lines.new after))

theorem tableDiffer_valid {table : List ((Bytes × Bytes) × List Change)}
    (scripts : ∀ entry ∈ table, Script (Lines.new entry.1.1) (Lines.new entry.1.2) entry.2) :
    (tableDiffer table).Valid := by
  intro before after
  unfold tableDiffer
  cases found : table.lookup (before, after) with
  | none => simpa [found] using trimmedEdits_script _ _
  | some changes =>
    simp only [found, Option.getD_some]
    have mem : ((before, after), changes) ∈ table := by
      induction table with
      | nil => cases found
      | cons entry table ih =>
        obtain ⟨key, value⟩ := entry
        rw [List.lookup_cons] at found
        split at found
        · next same =>
          rw [← Option.some.inj found, eq_of_beq same]
          exact List.mem_cons_self
        · exact List.mem_cons_of_mem _
            (ih (fun entry mem => scripts entry (List.mem_cons_of_mem _ mem)) found)
    exact scripts _ mem

theorem Differ.Valid.eq_of_nil {d : Differ} (valid : d.Valid) {a b : Bytes}
    (h : d.changes a b = []) : a = b := by
  have script := valid a b
  rw [h] at script
  exact Lines.new_injective (Script.nil_iff.mp script)

/-- Whether two line ranges share a line. An empty range sits between two
lines, so it also meets a range that ends or starts there. -/
def overlaps (first second : Range) : Bool :=
  if first.isEmpty || second.isEmpty then
    decide (first.start ≤ second.stop) && decide (second.start ≤ first.stop)
  else
    decide (first.start < second.stop) && decide (second.start < first.stop)

theorem overlaps_eq_false_iff {first second : Range} :
    overlaps first second = false ↔ Apart first second := by
  unfold overlaps Apart
  simp only [Bool.or_eq_true, isEmpty_eq_true]
  split_ifs
  all_goals
    simp only [Bool.and_eq_false_iff, decide_eq_false_iff_not, Nat.not_le, Nat.not_lt]
    omega

theorem overlaps_eq_true_iff {first second : Range} :
    overlaps first second = true ↔ ¬ Apart first second := by
  rw [← overlaps_eq_false_iff, Bool.not_eq_false]

/-- The (from, to) ranges of changes read forward. -/
def forward (changes : List Change) : List (Range × Range) :=
  changes.map fun change => (change.before, change.after)

/-- The (from, to) ranges of changes read backward. -/
def backward (changes : List Change) : List (Range × Range) :=
  changes.map fun change => (change.after, change.before)

@[simp] theorem forward_cons (change : Change) (changes : List Change) :
    forward (change :: changes) = (change.before, change.after) :: forward changes := rfl

theorem backward_eq (changes : List Change) :
    backward changes = forward (changes.map Edit.swap) := by
  simp [backward, forward, Function.comp_def]

def translateFrom (range : Range) : Int → List (Range × Range) → Option Range
  | shift, [] => do
    let start ← (range.start + shift).toNat?
    let stop ← (range.stop + shift).toNat?
    some ⟨start, stop⟩
  | shift, (source, target) :: edits =>
    if overlaps source range then none
    else if source.stop ≤ range.start then
      translateFrom range (shift + (target.stop - target.start : Nat) - (source.stop - source.start : Nat)) edits
    else translateFrom range shift edits

/-- Where `range` lands on the other side of `edits`, given as (from, to) range
pairs in order, or `none` when an edit touches it. -/
def translate (edits : List (Range × Range)) (range : Range) : Option Range :=
  translateFrom range 0 edits

/-- Where one line lands on the other side of `edits`, given as (from, to)
range pairs in order, or `none` when an edit replaces it. -/
def mapLineFrom (line : Nat) : Int → List (Range × Range) → Option Nat
  | shift, [] => (line + shift).toNat?
  | shift, (source, target) :: edits =>
    if source.start ≤ line ∧ line < source.stop then none
    else if source.stop ≤ line then
      mapLineFrom line (shift + (target.stop - target.start : Nat) - (source.stop - source.start : Nat)) edits
    else mapLineFrom line shift edits

def mapLine (edits : List (Range × Range)) (line : Nat) : Option Nat := mapLineFrom line 0 edits

/-- Where one line of the after side sits on the before side, or `none` when
a change put it there. A deletion right before the line only shifts it. -/
def beforeLine (changes : List Change) (line : Nat) : Option Nat := mapLine (backward changes) line

/-- Where one line of the before side sits on the after side, or `none` when
a change replaces it. An insertion right before the line only shifts it. -/
def afterLine (changes : List Change) (line : Nat) : Option Nat := mapLine (forward changes) line

/-- Changes grouped into hunks the way Git joins them: changes whose before
sides are at most two contexts apart share a hunk. -/
def hunkGroups (changes : List Change) : List (List Change) :=
  changes.splitBy fun previous next =>
    decide (next.before.start - previous.before.stop ≤ 2 * context)

variable {xs ys : List Bytes} {gap i j : Nat} {es : List Change} {r r' : Range}

theorem toNat?_shift {p q i j : Nat} (h : p + j = q + i) :
    ((p : Int) + ((j : Int) - (i : Int))).toNat? = some q := by
  have e : (p : Int) + ((j : Int) - (i : Int)) = (q : Int) := by omega
  rw [e]
  rfl

/-- Edits behind a range neither touch nor move it. -/
theorem translateFrom_of_behind (le : r.start ≤ r.stop)
    (behind : ∀ e ∈ es, r.stop < e.before.start ∧ e.before.start ≤ e.before.stop)
    (shift : Int) : translateFrom r shift (forward es) = translateFrom r shift [] := by
  induction es with
  | nil => rfl
  | cons e es ih =>
    have own := behind e List.mem_cons_self
    have clear : overlaps e.before r = false := by
      rw [overlaps_eq_false_iff]
      unfold Apart
      split_ifs <;> omega
    have later : ¬ e.before.stop ≤ r.start := by omega
    simp only [forward_cons, translateFrom.eq_2, clear, Bool.false_eq_true, if_false, if_neg later]
    exact ih fun f mem => behind f (List.mem_cons_of_mem e mem)

theorem translateFrom_of_placed (script : ScriptFrom xs ys gap i j es)
    (placed : Placed i j es r r') (le : r.start ≤ r.stop) :
    translateFrom r ((j : Int) - (i : Int)) (forward es) =
      if es.any (fun e => overlaps e.before r) then none else some r' := by
  induction es generalizing gap i j with
  | nil =>
    simp only [forward, List.map_nil, translateFrom, toNat?_shift placed.start,
      toNat?_shift placed.stop]
    rfl
  | cons e es ih =>
    have fit := script.1
    have gapEq := fit.same_gap
    have beforeLe := fit.before_le
    have afterLe := fit.after_le
    rw [forward_cons, translateFrom]
    by_cases meets : overlaps e.before r = true
    · simp [meets]
    · have apart := overlaps_eq_false_iff.mp (Bool.eq_false_iff.mpr meets)
      simp only [meets, if_false, List.any_cons, Bool.false_or, Bool.false_eq_true]
      rcases placed with ⟨stop, shifted⟩ | later
      · have here : ¬ e.before.stop ≤ r.start := by
          unfold Apart at apart
          split_ifs at apart <;> omega
        have behind : ∀ f ∈ es, r.stop < f.before.start ∧ f.before.start ≤ f.before.stop := by
          intro f mem
          have := script.2.bounds mem
          omega
        have clear : es.any (fun f => overlaps f.before r) = false := by
          rw [List.any_eq_false]
          intro f mem
          rw [overlaps_eq_true_iff, not_not]
          have := behind f mem
          unfold Apart
          split_ifs <;> omega
        rw [if_neg here, translateFrom_of_behind le behind, clear]
        simp only [translateFrom, toNat?_shift shifted.start, toNat?_shift shifted.stop]
        rfl
      · have past := (later.from script.2).1
        have shift : (j : Int) - i + (e.after.stop - e.after.start : Nat) -
            (e.before.stop - e.before.start : Nat) = (e.after.stop : Int) - e.before.stop := by
          omega
        rw [if_pos past, shift]
        exact ih script.2 later

/-- A range that no edit touches lands where its kept block lands. -/
theorem translate_of_placed (script : Script xs ys es) (placed : Placed 0 0 es r r')
    (le : r.start ≤ r.stop) :
    translate (forward es) r =
      if es.any (fun e => overlaps e.before r) then none else some r' := by
  simpa [translate] using translateFrom_of_placed script placed le

theorem translate_eq_none (meets : es.any (fun e => overlaps e.before r) = true) :
    translate (forward es) r = none := by
  unfold translate
  generalize (0 : Int) = shift
  induction es generalizing shift with
  | nil => simp at meets
  | cons e es ih =>
    rw [forward_cons, translateFrom]
    simp only [List.any_cons, Bool.or_eq_true] at meets
    by_cases own : overlaps e.before r = true
    · simp [own]
    · have later := ih (meets.resolve_left own)
      simp only [own, Bool.false_eq_true, later, ite_self]

/-- `translate` answers exactly for the ranges that no edit touches. -/
theorem translate_spec (script : Script xs ys es) (le : r.start ≤ r.stop) :
    (es.any (fun e => overlaps e.before r) = true ∧ translate (forward es) r = none) ∨
      (es.any (fun e => overlaps e.before r) = false ∧
        ∃ r', Placed 0 0 es r r' ∧ translate (forward es) r = some r') := by
  cases meets : es.any (fun e => overlaps e.before r) with
  | true => exact Or.inl ⟨rfl, translate_eq_none meets⟩
  | false =>
    have apart : ∀ e ∈ es, Apart e.before r := by
      intro e mem
      rw [List.any_eq_false] at meets
      exact overlaps_eq_false_iff.mp (Bool.eq_false_iff.mpr (meets e mem))
    obtain ⟨r', placed⟩ := exists_placed script (Nat.zero_le _) le apart
    refine Or.inr ⟨rfl, r', placed, ?_⟩
    rw [translate_of_placed script placed le, meets]
    rfl

theorem mapLineFrom_of_behind {line : Nat} (behind : ∀ e ∈ es, line < e.before.start ∧
    e.before.start ≤ e.before.stop) (shift : Int) :
    mapLineFrom line shift (forward es) = mapLineFrom line shift [] := by
  induction es with
  | nil => rfl
  | cons e es ih =>
    have own := behind e List.mem_cons_self
    have outside : ¬ (e.before.start ≤ line ∧ line < e.before.stop) := by omega
    have later : ¬ e.before.stop ≤ line := by omega
    rw [forward_cons, mapLineFrom.eq_2, if_neg outside, if_neg later]
    exact ih fun f mem => behind f (List.mem_cons_of_mem e mem)

/-- A line has no counterpart when an edit replaces it, else it is placed. -/
theorem mapLineFrom_spec (script : ScriptFrom xs ys gap i j es) {line : Nat} (hi : i ≤ line) :
    (∃ e ∈ es, e.before.holds line = true ∧
        mapLineFrom line ((j : Int) - (i : Int)) (forward es) = none) ∨
      ((∀ e ∈ es, e.before.holds line = false) ∧ ∃ k, Placed i j es ⟨line, line + 1⟩ ⟨k, k + 1⟩ ∧
        mapLineFrom line ((j : Int) - (i : Int)) (forward es) = some k) := by
  have block : Shifted i j ⟨line, line + 1⟩ ⟨line + j - i, line + j - i + 1⟩ :=
    ⟨hi, by dsimp only; omega, by dsimp only; omega⟩
  have lands : mapLineFrom line ((j : Int) - (i : Int)) [] = some (line + j - i) :=
    toNat?_shift (by omega)
  induction es generalizing gap i j with
  | nil => exact Or.inr ⟨by simp, _, block, lands⟩
  | cons e es ih =>
    have fit := script.1
    have gapEq := fit.same_gap
    have beforeLe := fit.before_le
    have afterLe := fit.after_le
    rw [forward_cons, mapLineFrom]
    by_cases inside : e.before.start ≤ line ∧ line < e.before.stop
    · exact Or.inl ⟨e, List.mem_cons_self, by simpa using inside, if_pos inside⟩
    · rw [if_neg inside]
      have outside : e.before.holds line = false := by
        rw [← Bool.not_eq_true, holds_iff]
        exact inside
      by_cases past : e.before.stop ≤ line
      · have shift : (j : Int) - i + (e.after.stop - e.after.start : Nat) -
            (e.before.stop - e.before.start : Nat) = (e.after.stop : Int) - e.before.stop := by
          omega
        rw [if_pos past, shift]
        rcases ih script.2 past ⟨past, by dsimp only; omega, by dsimp only; omega⟩
          (toNat?_shift (by omega)) with ⟨f, mem, holds, none_found⟩ | ⟨clear, k, placed, found⟩
        · exact Or.inl ⟨f, List.mem_cons_of_mem e mem, holds, none_found⟩
        · refine Or.inr ⟨fun f mem => ?_, k, Or.inr placed, found⟩
          rcases List.mem_cons.mp mem with rfl | mem
          · exact outside
          · exact clear f mem
      · rw [if_neg past]
        have behind : ∀ f ∈ es, line < f.before.start ∧ f.before.start ≤ f.before.stop := by
          intro f mem
          have := script.2.bounds mem
          omega
        rw [mapLineFrom_of_behind behind, lands]
        refine Or.inr ⟨fun f mem => ?_, _, Or.inl ⟨by dsimp only; omega, block⟩, rfl⟩
        rcases List.mem_cons.mp mem with rfl | mem
        · exact outside
        · have := behind f mem
          rw [← Bool.not_eq_true, holds_iff]
          omega

/-- The before line of a line that no change put there is placed with it. -/
theorem placed_of_beforeLine (script : Script xs ys es) {line k : Nat}
    (found : beforeLine es line = some k) : Placed 0 0 es ⟨k, k + 1⟩ ⟨line, line + 1⟩ := by
  rw [beforeLine, mapLine, backward_eq] at found
  rcases mapLineFrom_spec script.swap (Nat.zero_le line) with
    ⟨_, _, _, none_found⟩ | ⟨_, k', placed, found'⟩
  · rw [show (0 : Int) = ((0 : Nat) : Int) - ((0 : Nat) : Int) by rfl, none_found] at found
    cases found
  · rw [show (0 : Int) = ((0 : Nat) : Int) - ((0 : Nat) : Int) by rfl, found'] at found
    obtain rfl := Option.some.inj found
    have back := placed.swap script.swap
    simpa [Function.comp_def] using back

theorem getElem?_of_placed (script : Script xs ys es) {line k : Nat}
    (placed : Placed 0 0 es ⟨k, k + 1⟩ ⟨line, line + 1⟩) : xs[k]? = ys[line]? := by
  have same := congrArg (fun lines => lines[0]?) (placed.cut_eq script)
  simpa [cut_getElem?] using same

/-- No change replaces the before line of a line it did not put there. -/
theorem beforeLine_kept (script : Script xs ys es) {line k : Nat}
    (found : beforeLine es line = some k) {e : Change} (mem : e ∈ es) :
    e.before.holds k = false := by
  have side := (placed_of_beforeLine script found).side script mem
  rw [← Bool.not_eq_true, holds_iff]
  dsimp only at side
  omega

end ProgressiveReviewer.Hunks
