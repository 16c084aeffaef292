import ProgressiveReviewer.Library.EditScript
import Mathlib.Order.Basic
import Mathlib.Order.Lattice
import Mathlib.Data.Nat.Init

/-! Items that tile a stretch of positions in order, some of them standing between two positions.
A part of the stretch can be carved out of the items that hold it, for one item of its own. -/

namespace ProgressiveReviewer.Library

open Extent

variable {α : Type*} (span : α → Option Extent)

/-- Items that tile the positions from `start` to `stop`. -/
def Tiles (stop : Nat) : Nat → List α → Prop
  | start, [] => start = stop
  | start, item :: items =>
    match span item with
    | none => Tiles stop start items
    | some held => held.start = start ∧ start ≤ held.stop ∧ Tiles stop held.stop items

/-- The positions that an item holds. -/
def heldBy (item : α) : List Nat := ((span item).map positions).getD []

/-- An item placed before the first one that starts at a position or later. -/
def insertAt (position : Nat) (new : α) : List α → List α
  | [] => [new]
  | item :: items =>
    if (span item).any (position ≤ ·.start) then new :: item :: items
    else item :: insertAt position new items

/-- The item of an extent, if the extent is not empty. -/
def Piece (extent : Extent) (items : List α) : Prop :=
  if extent.start < extent.stop then ∃ item, items = [item] ∧ span item = some extent
  else items = []

/-- What carving a hole leaves of an item; `joins` tells the items that must not stand side by
side. -/
structure Carves (joins : α → Bool) (hole : Extent) (carve : α → List α) (item : α) : Prop where
  /-- An item that does not reach into the hole stays. -/
  aside : (∀ held, span item = some held → held.stop ≤ hole.start ∨ hole.stop ≤ held.start) →
    carve item = [item]
  inside : ∀ held, span item = some held → hole.start < held.stop → held.start < hole.stop →
    ∃ front back, carve item = front ++ back ∧ Piece span ⟨held.start, hole.start⟩ front ∧
      Piece span ⟨hole.stop, held.stop⟩ back
  /-- No item ahead of the hole's end is empty. -/
  solid : ∀ held, span item = some held → held.start < hole.stop → held.start < held.stop
  pieces : ∀ piece ∈ carve item, joins piece = true → joins item = true ∧ (span piece).isSome

/-- No two items that join stand side by side. -/
def Spaced (joins : α → Bool) : List α → Prop
  | [] => True
  | item :: items =>
    (joins item = true → ∀ next ∈ items.head?, joins next = false) ∧ Spaced joins items

variable {span} {joins : α → Bool} {hole : Extent} {carve : α → List α} {items : List α} {new : α}
  {start stop : Nat}

/-- The place of an item found by a test of its own. -/
theorem insertIdx_findIdx? {position : Nat} {test : α → Bool} (items : List α)
    (same : ∀ item ∈ items, test item = (span item).any (position ≤ ·.start)) :
    items.insertIdx ((items.findIdx? test).getD items.length) new =
      insertAt span position new items := by
  induction items with
  | nil => rfl
  | cons item items ih =>
    obtain ⟨own, same⟩ := List.forall_mem_cons.mp same
    rw [List.findIdx?_cons, insertAt, ← own]
    cases test item with
    | true => rfl
    | false =>
      rw [if_neg Bool.false_ne_true, if_neg Bool.false_ne_true, ← ih same]
      cases items.findIdx? test <;> rfl

theorem piece_nil {extent : Extent} (empty : extent.stop ≤ extent.start) : Piece span extent [] := by
  unfold Piece
  rw [if_neg (Nat.not_lt.mpr empty)]

theorem carves_whole {item : α} (kept : carve item = [item])
    (clear : ∀ held, span item = some held → held.stop ≤ hole.start ∨ hole.stop ≤ held.start)
    (solid : ∀ held, span item = some held → held.start < hole.stop → held.start < held.stop)
    (alone : joins item = false) : Carves span joins hole carve item := by
  refine ⟨fun _ => kept, fun held own reaches begins => ?_, solid, fun piece mem joined => ?_⟩
  · rcases clear held own with ends | starts <;> omega
  · rw [kept, List.mem_singleton] at mem
    rw [mem, alone] at joined
    cases joined

theorem carves_dropped {item : α} {held : Extent} (dropped : carve item = [])
    (own : span item = some held) (from_ : hole.start ≤ held.start) (upto : held.stop ≤ hole.stop)
    (some_ : held.start < held.stop) : Carves span joins hole carve item := by
  refine ⟨fun clear => ?_, fun other same _ _ => ?_, fun other same _ => ?_, fun piece mem => ?_⟩
  · rcases clear held own with ends | starts <;> omega
  · obtain rfl := Option.some.inj (own.symm.trans same)
    exact ⟨[], [], dropped, piece_nil from_, piece_nil upto⟩
  · obtain rfl := Option.some.inj (own.symm.trans same)
    exact some_
  · rw [dropped] at mem
    cases mem

theorem Tiles.le (tiles : Tiles span stop start items) : start ≤ stop := by
  induction items generalizing start with
  | nil => exact tiles.le
  | cons item items ih =>
    rw [Tiles] at tiles
    cases own : span item with
    | none =>
      rw [own] at tiles
      exact ih tiles
    | some held =>
      rw [own] at tiles
      exact tiles.2.1.trans (ih tiles.2.2)

theorem Tiles.starts (tiles : Tiles span stop start items) :
    ∀ item ∈ items, ∀ held, span item = some held → start ≤ held.start := by
  induction items generalizing start with
  | nil => exact fun _ mem => (nomatch mem)
  | cons item items ih =>
    rw [Tiles] at tiles
    rw [List.forall_mem_cons]
    cases own : span item with
    | none =>
      rw [own] at tiles
      exact ⟨fun _ none => (nomatch none), ih tiles⟩
    | some held =>
      rw [own] at tiles
      obtain ⟨starts, le, tiles⟩ := tiles
      refine ⟨fun other same => ?_, fun item mem other same => le.trans (ih tiles item mem other same)⟩
      obtain rfl := Option.some.inj same
      exact starts.ge

/-- Each position of the stretch is held once, in order. -/
theorem Tiles.positions (tiles : Tiles span stop start items) :
    items.flatMap (heldBy span) = List.range' start (stop - start) := by
  induction items generalizing start with
  | nil =>
    rw [show start = stop from tiles, Nat.sub_self]
    rfl
  | cons item items ih =>
    rw [Tiles] at tiles
    rw [List.flatMap_cons, heldBy]
    cases own : span item with
    | none =>
      rw [own] at tiles
      exact ih tiles
    | some held =>
      rw [own] at tiles
      obtain ⟨rfl, le, tiles⟩ := tiles
      have split : stop - held.start = held.stop - held.start + (stop - held.stop) := by
        have := tiles.le
        omega
      rw [ih tiles, split, ← List.range'_append_1, Nat.add_sub_cancel' le]
      rfl

theorem tiles_append {middle : Nat} {more : List α} (tiles : Tiles span middle start items)
    (rest : Tiles span stop middle more) : Tiles span stop start (items ++ more) := by
  induction items generalizing start with
  | nil =>
    obtain rfl : start = middle := tiles
    exact rest
  | cons item items ih =>
    rw [Tiles] at tiles
    rw [List.cons_append, Tiles]
    cases own : span item with
    | none =>
      rw [own] at tiles
      exact ih tiles
    | some held =>
      rw [own] at tiles
      exact ⟨tiles.1, tiles.2.1, ih tiles.2.2⟩

theorem spaced_of_alone (alone : ∀ item ∈ items, joins item = false) : Spaced joins items := by
  induction items with
  | nil => trivial
  | cons item items ih =>
    obtain ⟨own, rest⟩ := List.forall_mem_cons.mp alone
    exact ⟨fun joined => absurd (own.symm.trans joined) Bool.false_ne_true, ih rest⟩

theorem spaced_concat (spaced : Spaced joins items)
    (apart : joins new = true → ∀ last ∈ items.getLast?, joins last = false) :
    Spaced joins (items ++ [new]) := by
  induction items with
  | nil => exact ⟨fun _ _ none => (nomatch none), trivial⟩
  | cons item items ih =>
    cases items with
    | nil =>
      refine ⟨fun joined next mem => ?_, fun _ _ none => (nomatch none), trivial⟩
      obtain rfl := Option.some.inj mem
      refine Bool.eq_false_iff.mpr fun other => ?_
      exact absurd ((apart other item rfl).symm.trans joined) Bool.false_ne_true
    | cons next items => exact ⟨spaced.1, ih spaced.2 fun joined last mem => apart joined last (by
        rwa [List.getLast?_cons_cons])⟩

/-- Carving leaves what lies behind the hole. -/
theorem carve_behind (carves : ∀ item ∈ items, Carves span joins hole carve item)
    (behind : hole.stop ≤ start) (tiles : Tiles span stop start items) :
    items.flatMap carve = items := by
  have each : ∀ item ∈ items, carve item = [item] := fun item mem =>
    (carves item mem).aside fun held own => Or.inr (behind.trans (tiles.starts item mem held own))
  rw [List.flatMap_congr each, List.flatMap_singleton']

/-- What is left of an item behind the hole, and the items after it. -/
theorem tiles_back {reach : Nat} {back more : List α} (after : Piece span ⟨hole.stop, reach⟩ back)
    (rest : Tiles span stop (max reach hole.stop) more) : Tiles span stop hole.stop (back ++ more) := by
  unfold Piece at after
  split_ifs at after with beyond
  · obtain ⟨piece, rfl, held⟩ := after
    rw [max_eq_left (Nat.le_of_lt beyond)] at rest
    rw [List.singleton_append, Tiles, held]
    exact ⟨rfl, Nat.le_of_lt beyond, rest⟩
  · rw [max_eq_right (Nat.not_lt.mp beyond)] at rest
    rw [after]
    exact rest

/-- What is left of the items from the hole on lies behind it. -/
theorem tiles_carve (carves : ∀ item ∈ items, Carves span joins hole carve item)
    (from_ : hole.start ≤ start) (within : hole.stop ≤ stop) (tiles : Tiles span stop start items) :
    Tiles span stop (max start hole.stop) (items.flatMap carve) := by
  induction items generalizing start with
  | nil =>
    obtain rfl : start = stop := tiles
    exact max_eq_left within
  | cons item items ih =>
    obtain ⟨own, carves⟩ := List.forall_mem_cons.mp carves
    rw [Tiles] at tiles
    rw [List.flatMap_cons]
    cases held : span item with
    | none =>
      rw [held] at tiles
      rw [own.aside fun _ other => (nomatch held.symm.trans other), List.singleton_append, Tiles, held]
      exact ih carves from_ tiles
    | some extent =>
      rw [held] at tiles
      obtain ⟨rfl, le, tiles⟩ := tiles
      rcases Nat.lt_or_ge extent.start hole.stop with reaches | behind
      · have solid := own.solid extent held reaches
        obtain ⟨front, back, carved, before, after⟩ := own.inside extent held (by omega) reaches
        have none : front = [] := (if_neg (Nat.not_lt.mpr from_)).mp before
        rw [carved, none, List.nil_append, max_eq_right reaches.le]
        exact tiles_back after (ih carves (from_.trans le) tiles)
      · have rest := ih carves (from_.trans le) tiles
        rw [max_eq_left (behind.trans le)] at rest
        rw [own.aside fun other same => Or.inr (Option.some.inj (held.symm.trans same) ▸ behind),
          max_eq_left behind, List.singleton_append, Tiles, held]
        exact ⟨rfl, le, rest⟩

theorem tiles_insertAt (proper : hole.start ≤ hole.stop) (own : span new = some hole)
    (tiles : Tiles span stop hole.stop items) :
    Tiles span stop hole.start (insertAt span hole.start new items) := by
  induction items with
  | nil =>
    rw [insertAt, Tiles, own]
    exact ⟨rfl, proper, tiles⟩
  | cons item items ih =>
    have tiled := tiles
    rw [Tiles] at tiles
    rw [insertAt]
    cases held : span item with
    | none =>
      rw [held] at tiles
      rw [Option.any_none, if_neg Bool.false_ne_true, Tiles, held]
      exact ih tiles
    | some extent =>
      rw [held] at tiles
      rw [Option.any_some, if_pos (decide_eq_true (tiles.1 ▸ proper)), Tiles, own]
      exact ⟨rfl, proper, tiled⟩

/-- A part of the stretch carved out for one item. -/
def carveOut (span : α → Option Extent) (hole : Extent) (carve : α → List α) (new : α)
    (items : List α) : List α :=
  insertAt span hole.start new (items.flatMap carve)

theorem insertAt_before {item : α} {position : Nat}
    (before : ∀ held, span item = some held → held.start < position) :
    insertAt span position new (item :: items) = item :: insertAt span position new items := by
  rw [insertAt]
  cases held : span item with
  | none => rfl
  | some extent =>
    rw [Option.any_some, decide_eq_false (Nat.not_le.mpr (before extent held)),
      if_neg Bool.false_ne_true]

theorem head_insertAt {position : Nat} {next : α}
    (mem : next ∈ (insertAt span position new items).head?) : next = new ∨ next ∈ items.head? := by
  cases items with
  | nil => exact Or.inl (Option.some.inj mem).symm
  | cons item items =>
    rw [insertAt] at mem
    split_ifs at mem
    · exact Or.inl (Option.some.inj mem).symm
    · exact Or.inr mem

theorem spaced_insertAt {position : Nat} (alone : joins new = false) (spaced : Spaced joins items) :
    Spaced joins (insertAt span position new items) := by
  induction items with
  | nil => exact ⟨fun _ _ none => (nomatch none), trivial⟩
  | cons item items ih =>
    rw [insertAt]
    split_ifs
    · exact ⟨fun joined => absurd (alone.symm.trans joined) Bool.false_ne_true, spaced⟩
    · refine ⟨fun joined next mem => ?_, ih spaced.2⟩
      rcases head_insertAt mem with rfl | mem
      · exact alone
      · exact spaced.1 joined next mem

theorem spaced_back {item : α} {reach : Nat} {back : List α}
    (after : Piece span ⟨hole.stop, reach⟩ back)
    (pieces : ∀ piece ∈ back, joins piece = true → joins item = true)
    (carves : ∀ item ∈ items, Carves span joins hole carve item) (tiles : Tiles span stop reach items)
    (spaced : Spaced joins (item :: items)) (rest : Spaced joins (items.flatMap carve)) :
    Spaced joins (back ++ items.flatMap carve) := by
  unfold Piece at after
  split_ifs at after with beyond
  · obtain ⟨piece, rfl, -⟩ := after
    rw [carve_behind carves (Nat.le_of_lt beyond) tiles]
    exact ⟨fun joined => spaced.1 (pieces piece (List.mem_singleton_self piece) joined), spaced.2⟩
  · rw [after]
    exact rest

theorem spaced_carve (carves : ∀ item ∈ items, Carves span joins hole carve item)
    (from_ : hole.start ≤ start) (tiles : Tiles span stop start items) (spaced : Spaced joins items) :
    Spaced joins (items.flatMap carve) := by
  induction items generalizing start with
  | nil => trivial
  | cons item items ih =>
    obtain ⟨own, carves⟩ := List.forall_mem_cons.mp carves
    have tiled := tiles
    rw [Tiles] at tiles
    rw [List.flatMap_cons]
    cases held : span item with
    | none =>
      rw [held] at tiles
      have stays := own.aside fun _ other => (nomatch held.symm.trans other)
      have alone : ¬joins item = true := fun joined => by
        have spanned := (own.pieces item (stays ▸ List.mem_singleton_self item) joined).2
        rw [held] at spanned
        cases spanned
      rw [stays]
      exact ⟨fun joined => absurd joined alone, ih carves from_ tiles spaced.2⟩
    | some extent =>
      rw [held] at tiles
      obtain ⟨rfl, le, tiles⟩ := tiles
      rcases Nat.lt_or_ge extent.start hole.stop with reaches | behind
      · have solid := own.solid extent held reaches
        obtain ⟨front, back, carved, before, after⟩ := own.inside extent held (by omega) reaches
        have none : front = [] := (if_neg (Nat.not_lt.mpr from_)).mp before
        rw [none, List.nil_append] at carved
        rw [carved]
        exact spaced_back after (fun piece mem joined => (own.pieces piece (carved ▸ mem) joined).1)
          carves tiles spaced (ih carves (Nat.le_trans from_ le) tiles spaced.2)
      · rw [← List.flatMap_cons, carve_behind (List.forall_mem_cons.mpr ⟨own, carves⟩) behind tiled]
        exact spaced

/-- What comes first at the hole does not join. -/
theorem head_at (proper : hole.start ≤ hole.stop) (alone : joins new = false) {more : List α}
    (spanned : ∀ item ∈ more, joins item = true → (span item).isSome)
    (tiles : Tiles span stop hole.stop more) {next : α}
    (mem : next ∈ (insertAt span hole.start new more).head?) : joins next = false := by
  cases more with
  | nil =>
    cases mem
    exact alone
  | cons item more =>
    rw [insertAt] at mem
    split_ifs at mem with here
    · cases mem
      exact alone
    · cases mem
      refine Bool.eq_false_iff.mpr fun joined => here ?_
      obtain ⟨held, spans⟩ := Option.isSome_iff_exists.mp (spanned next (.head _) joined)
      rw [spans, Option.any_some, decide_eq_true_eq]
      exact Nat.le_trans proper (tiles.starts next (.head _) held spans)

theorem spanned_carve (carves : ∀ item ∈ items, Carves span joins hole carve item) :
    ∀ piece ∈ items.flatMap carve, joins piece = true → (span piece).isSome := by
  intro piece mem joined
  obtain ⟨item, held, mem⟩ := List.mem_flatMap.mp mem
  exact ((carves item held).pieces piece mem joined).2

/-- An item ahead of the hole stays whole, or its first piece reaches up to the hole. -/
theorem carveOut_cons (new : α) {item : α} (carves : ∀ other ∈ item :: items, Carves span joins hole carve other)
    (proper : hole.start ≤ hole.stop) (before : start < hole.start)
    (tiles : Tiles span stop start (item :: items)) :
    (carveOut span hole carve new (item :: items) = item :: carveOut span hole carve new items ∧
      ∃ reach ≤ hole.start, Tiles span stop reach items ∧
        ∀ more, Tiles span stop reach more → Tiles span stop start (item :: more)) ∨
    ∃ piece back reach, carve item = piece :: back ∧ span piece = some ⟨start, hole.start⟩ ∧
      Piece span ⟨hole.stop, reach⟩ back ∧ hole.start ≤ reach ∧ Tiles span stop reach items ∧
      carveOut span hole carve new (item :: items) =
        piece :: insertAt span hole.start new (back ++ items.flatMap carve) := by
  obtain ⟨first, -⟩ := List.forall_mem_cons.mp carves
  rw [Tiles] at tiles
  rw [carveOut, List.flatMap_cons]
  cases held : span item with
  | none =>
    rw [held] at tiles
    rw [first.aside fun _ other => (nomatch held.symm.trans other), List.singleton_append,
      insertAt_before fun _ other => (nomatch held.symm.trans other)]
    refine Or.inl ⟨rfl, start, Nat.le_of_lt before, tiles, fun more tiled => ?_⟩
    rw [Tiles, held]
    exact tiled
  | some extent =>
    rw [held] at tiles
    obtain ⟨rfl, upto, tiles⟩ := tiles
    rcases Nat.lt_or_ge hole.start extent.stop with reaches | short
    · obtain ⟨front, back, carved, ahead, after⟩ :=
        first.inside extent held reaches (Nat.lt_of_lt_of_le before proper)
      obtain ⟨piece, rfl, pieceHeld⟩ := (if_pos before).mp ahead
      refine Or.inr ⟨piece, back, extent.stop, carved, pieceHeld, after, Nat.le_of_lt reaches, tiles, ?_⟩
      rw [carved, List.append_assoc, List.singleton_append, insertAt_before]
      intro other same
      obtain rfl := Option.some.inj (pieceHeld.symm.trans same)
      exact before
    · rw [first.aside fun other same => Or.inl (Option.some.inj (held.symm.trans same) ▸ short),
        List.singleton_append, insertAt_before (by
          intro other same
          obtain rfl := Option.some.inj (held.symm.trans same)
          exact before)]
      refine Or.inl ⟨rfl, extent.stop, short, tiles, fun more tiled => ?_⟩
      rw [Tiles, held]
      exact ⟨rfl, upto, tiled⟩

section CarveOut

variable (carves : ∀ item ∈ items, Carves span joins hole carve item)
  (proper : hole.start ≤ hole.stop) (within : hole.stop ≤ stop)

include carves proper within

theorem tiles_carveOut (own : span new = some hole) (le : start ≤ hole.start) (tiles : Tiles span stop start items) :
    Tiles span stop start (carveOut span hole carve new items) := by
  induction items generalizing start with
  | nil =>
    obtain rfl : start = stop := tiles
    have same : start = hole.start := Nat.le_antisymm le (Nat.le_trans proper within)
    rw [carveOut, List.flatMap_nil, insertAt, Tiles, own]
    exact ⟨same.symm, same ▸ proper, Nat.le_antisymm within (Nat.le_trans le proper)⟩
  | cons item items ih =>
    rcases Nat.eq_or_lt_of_le le with rfl | before
    · have carved := tiles_carve carves (Nat.le_refl _) within tiles
      rw [max_eq_right proper] at carved
      exact tiles_insertAt proper own carved
    · have rest := (List.forall_mem_cons.mp carves).2
      obtain ⟨same, reach, short, tiled, onto⟩ | ⟨piece, back, reach, -, held, after, far, tiled, same⟩ :=
        carveOut_cons new carves proper before tiles
      · rw [same]
        exact onto _ (ih rest short tiled)
      · rw [same, Tiles, held]
        exact ⟨rfl, Nat.le_of_lt before,
          tiles_insertAt proper own (tiles_back after (tiles_carve rest far within tiled))⟩

/-- An item that joins comes first only where one did. -/
theorem head_carveOut (alone : joins new = false) (le : start ≤ hole.start)
    (tiles : Tiles span stop start items) {next : α}
    (mem : next ∈ (carveOut span hole carve new items).head?) (joined : joins next = true) :
    ∃ first ∈ items.head?, joins first = true := by
  rcases Nat.eq_or_lt_of_le le with rfl | before
  · have carved := tiles_carve carves (Nat.le_refl _) within tiles
    rw [max_eq_right proper] at carved
    have apart := head_at proper alone (spanned_carve carves) carved mem
    exact absurd (apart.symm.trans joined) Bool.false_ne_true
  · cases items with
    | nil =>
      have : start = stop := tiles
      omega
    | cons item items =>
      refine ⟨item, rfl, ?_⟩
      obtain ⟨same, -⟩ | ⟨piece, back, reach, carved, -, -, -, -, same⟩ :=
        carveOut_cons new carves proper before tiles
      · rw [same] at mem
        cases mem
        exact joined
      · rw [same] at mem
        cases mem
        exact ((carves item (.head _)).pieces next (carved ▸ .head _) joined).1

theorem spaced_carveOut (alone : joins new = false) (le : start ≤ hole.start)
    (tiles : Tiles span stop start items) (spaced : Spaced joins items) :
    Spaced joins (carveOut span hole carve new items) := by
  induction items generalizing start with
  | nil => exact ⟨fun _ _ none => (nomatch none), trivial⟩
  | cons item items ih =>
    rcases Nat.eq_or_lt_of_le le with rfl | before
    · exact spaced_insertAt alone (spaced_carve carves (Nat.le_refl _) tiles spaced)
    · obtain ⟨first, rest⟩ := List.forall_mem_cons.mp carves
      obtain ⟨same, reach, short, tiled, -⟩ | ⟨piece, back, reach, carved, -, after, far, tiled, same⟩ :=
        carveOut_cons new carves proper before tiles
      · rw [same]
        refine ⟨fun joined next mem => Bool.eq_false_iff.mpr fun other => ?_, ih rest short tiled spaced.2⟩
        obtain ⟨head, held, joins⟩ := head_carveOut rest proper within alone short tiled mem other
        exact absurd ((spaced.1 joined head held).symm.trans joins) Bool.false_ne_true
      · have pieces : ∀ other ∈ back, joins other = true → joins item = true ∧ (span other).isSome :=
          fun other mem => first.pieces other (carved ▸ .tail _ mem)
        have tail := spaced_back after (fun other mem joined => (pieces other mem joined).1) rest tiled
          spaced (spaced_carve rest far tiled spaced.2)
        have spanned : ∀ other ∈ back ++ items.flatMap carve, joins other = true →
            (span other).isSome := by
          intro other mem joined
          rcases List.mem_append.mp mem with mem | mem
          · exact (pieces other mem joined).2
          · exact spanned_carve rest other mem joined
        rw [same]
        exact ⟨fun _ next mem => head_at proper alone spanned
          (tiles_back after (tiles_carve rest far within tiled)) mem, spaced_insertAt alone tail⟩

end CarveOut

end ProgressiveReviewer.Library
