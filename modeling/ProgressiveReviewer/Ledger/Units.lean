import ProgressiveReviewer.Explore.Source
import Mathlib.Data.Prod.Lex
import ProgressiveReviewer.Library.Spans
import ProgressiveReviewer.Parsers.FileDiff
import ProgressiveReviewer.Parsers.Records

/-! Which changed lines of a comparison are too insignificant to need review
(`review-significance/src/ledger.rs`). -/

namespace ProgressiveReviewer.Ledger

open Library Hunks
open Explore (SourceSide)

/-- Lines are one-based and half-open. -/
inductive ChangeUnit where
  | lines (file : Nat) (side : SourceSide) (first stop : Nat)
  | item (file : Nat) (name : String)
  deriving DecidableEq, Repr

/-- The order of the fields as they are declared. -/
def sideRank : SourceSide → Nat
  | .old => 0
  | .new => 1

namespace ChangeUnit

def fileIndex : ChangeUnit → Nat
  | lines file _ _ _ | item file _ => file

def le : ChangeUnit → ChangeUnit → Bool
  | lines file side first stop, lines file' side' first' stop' =>
    toLex (file, toLex (sideRank side, toLex (first, stop))) ≤
      toLex (file', toLex (sideRank side', toLex (first', stop')))
  | lines .., item .. => true
  | item .., lines .. => false
  | item file name, item file' name' => toLex (file, name) ≤ toLex (file', name')

end ChangeUnit

/-- A unit is pushed, unless it is the last one already. -/
def pushed (result : List ChangeUnit) (unit : ChangeUnit) : List ChangeUnit :=
  if result.getLast? = some unit then result else result ++ [unit]

/-- A unit after the ones that are merged already. -/
def pushUnit (result : List ChangeUnit) (unit : ChangeUnit) : List ChangeUnit :=
  match result.getLast?, unit with
  | some (.lines leftFile leftSide leftFirst leftStop), .lines file side first stop =>
    if leftFile = file ∧ leftSide = side ∧ first ≤ leftStop
    then result.dropLast ++ [.lines leftFile leftSide leftFirst (max leftStop stop)]
    else pushed result unit
  | _, _ => pushed result unit

def normalize (units : List ChangeUnit) : List ChangeUnit :=
  (units.mergeSort ChangeUnit.le).foldl pushUnit []

/-- What a unit leaves of the pieces of some lines. -/
def cutPieces (file : Nat) (side : SourceSide) (pieces : List (Nat × Nat)) : ChangeUnit → List (Nat × Nat)
  | .lines otherFile otherSide first stop =>
    if file = otherFile ∧ side = otherSide then pieces.flatMap (cutSpan (first, stop))
    else pieces
  | .item .. => pieces

def subtractUnit (right : List ChangeUnit) : ChangeUnit → List ChangeUnit
  | .item file name => if .item file name ∈ right then [] else [.item file name]
  | .lines file side first stop =>
    (right.foldl (cutPieces file side) [(first, stop)]).map fun piece => .lines file side piece.1 piece.2

def subtract (left right : List ChangeUnit) : List ChangeUnit :=
  normalize (left.flatMap (subtractUnit right))

/-- Every change of a comparison: its changed lines and its non-text changes. -/
structure ChangeInventory where
  units : List ChangeUnit
  /-- Whether every change could be listed. -/
  complete : Bool
  deriving DecidableEq, Repr

/-- The changes that a ledger is about. -/
structure Comparison where
  files : List Parsers.ChangedFile
  diffs : List Bytes

/-- The non-text changes of a file by name. -/
abbrev Items := SortedMap String Unit

/-- The last line number of 32 bits. -/
def lastLine : Nat := 2 ^ 32 - 1

namespace ChangeInventory

variable (inventory : ChangeInventory)

def pushLine (index : Nat) (side : SourceSide) (line : Nat) : ChangeInventory :=
  { inventory with units := inventory.units ++ [.lines index side line (min (line + 1) lastLine)] }

/-- Whether a row changes a line, with the inventory and the items after it. -/
def recordRow (index : Nat) (items : Items) : DiffRow → Bool × ChangeInventory × Items
  | .add newLine _ => (true, inventory.pushLine index .new newLine, items)
  | .delete oldLine _ => (true, inventory.pushLine index .old oldLine, items)
  | .metadata text =>
    if "old mode ".toList.isPrefixOf text.toList ∨ "new mode ".toList.isPrefixOf text.toList
    then (false, inventory, items.insert "mode" ())
    else (false, inventory, items)
  | .notice .binary _ => (false, inventory, items.insert "binary" ())
  | .notice .unsupported _ | .notice .conflict _ => (false, { inventory with complete := false }, items)
  | _ => (false, inventory, items)

def metadataItems (file : Parsers.ChangedFile) : Items :=
  let items : Items := .empty
  let items := if file.oldPath ≠ file.newPath ∧ file.oldPath.isSome ∧ file.newPath.isSome
    then items.insert "rename" () else items
  let items := if file.oldKind ≠ .absent ∧ file.newKind ≠ .absent ∧ file.oldKind ≠ file.newKind
    then items.insert "type" () else items
  if file.oldKind = .gitlink ∨ file.newKind = .gitlink then items.insert "submodule" () else items

def finishFile (index : Nat) (file : Parsers.ChangedFile) (diff : Bytes) (hasLines : Bool)
    (items : Items) : ChangeInventory :=
  let items := items.extend (metadataItems file)
  let items := if !hasLines ∧ items.isEmpty ∧ (file.change = .added ∨ file.change = .deleted)
    then items.insert "empty_file" () else items
  { units := inventory.units ++ items.keys.map (.item index)
    complete := inventory.complete && !(!hasLines && items.isEmpty && diff.isEmpty) }

def recordRows (index : Nat) (rows : List DiffRow) : Bool × ChangeInventory × Items :=
  rows.foldl (fun (had, inventory, items) row =>
    let (changes, inventory, items) := inventory.recordRow index items row
    (had || changes, inventory, items)) (false, inventory, .empty)

def captureFile (index : Nat) (file : Parsers.ChangedFile) (diff : Bytes) : ChangeInventory :=
  let (hasLines, inventory, items) :=
    inventory.recordRows index (Parsers.parseFileDiff diff file.toChangedFile)
  inventory.finishFile index file diff hasLines items

def capture (comparison : Comparison) : ChangeInventory :=
  if comparison.diffs.length = comparison.files.length then
    let result := (comparison.files.zip comparison.diffs).zipIdx.foldl
      (fun (result : ChangeInventory) ((file, diff), index) => result.captureFile index file diff)
      ⟨[], true⟩
    { result with units := normalize result.units }
  else ⟨[], false⟩

def fileComplete (comparison : Comparison) (index : Nat) : Bool :=
  inventory.complete ||
    match comparison.files[index]?, comparison.diffs[index]? with
    | some file, some diff => (captureFile ⟨[], true⟩ index file diff).complete
    | _, _ => false

end ChangeInventory

inductive Significance where
  | significant
  | insignificant
  | uncertain
  | failed
  | oversized
  deriving DecidableEq, Repr

/-- A classification of some changes. -/
structure SignificanceResult where
  id : String
  units : List ChangeUnit
  outcome : Significance
  deriving DecidableEq, Repr

structure SignificanceLedger where
  inventory : ChangeInventory
  classifications : SortedMap String SignificanceResult
  excluded : List ChangeUnit

/-- One file's changed lines that are excluded. -/
abbrev ExcludedLines := List (SourceSide × Nat × Nat)

def ExcludedLines.contains (excluded : ExcludedLines) (side : SourceSide) (line : Nat) : Bool :=
  excluded.any fun (excludedSide, first, stop) => excludedSide = side ∧ first ≤ line ∧ line < stop

namespace SignificanceLedger

def ofInventory (inventory : ChangeInventory) : SignificanceLedger := ⟨inventory, .empty, []⟩

def new (comparison : Comparison) : SignificanceLedger := ofInventory (.capture comparison)

variable (ledger : SignificanceLedger)

/-- Record one classification; false when it was recorded already or names other changes. -/
def recordSignificance (result : SignificanceResult) : Bool × SignificanceLedger :=
  if ledger.classifications.contains result.id ∨ result.units.isEmpty ∨
      !(subtract result.units ledger.inventory.units).isEmpty then (false, ledger)
  else
    let excluded := if result.outcome = .insignificant
      then normalize (ledger.excluded ++ result.units) else ledger.excluded
    (true, { ledger with
      classifications := ledger.classifications.insert result.id result
      excluded := excluded })

def excludedLines (file : Nat) : ExcludedLines :=
  ledger.excluded.filterMap fun
    | .lines unitFile side first stop => if unitFile = file then some (side, first, stop) else none
    | .item .. => none

/-- Files whose entire listed change is excluded. -/
def fullyExcludedFiles (comparison : Comparison) : List Nat :=
  (List.range comparison.files.length).filter fun file =>
    let units := ledger.inventory.units.filter fun unit => unit.fileIndex = file
    !units.isEmpty && (subtract units ledger.excluded).isEmpty &&
      ledger.inventory.fileComplete comparison file

end SignificanceLedger

end ProgressiveReviewer.Ledger

/-! The units of a ledger as sets: normalizing keeps what they name, subtracting takes away
what the others name. -/

namespace ProgressiveReviewer.Ledger

open Library
open Explore (SourceSide)

/-- What a unit can name: one line or one item of a file. -/
inductive Place where
  | line (file : Nat) (side : SourceSide) (number : Nat)
  | item (file : Nat) (name : String)
  deriving DecidableEq, Repr

def Place.fileIndex : Place → Nat
  | line file _ _ | item file _ => file

def ChangeUnit.Names : ChangeUnit → Place → Prop
  | .lines file side first stop, .line file' side' number =>
    file = file' ∧ side = side' ∧ first ≤ number ∧ number < stop
  | .item file name, .item file' name' => file = file' ∧ name = name'
  | _, _ => False

instance (unit : ChangeUnit) (place : Place) : Decidable (unit.Names place) := by
  unfold ChangeUnit.Names
  split <;> infer_instance

/-- The lines and items that some units name. -/
def named (units : List ChangeUnit) : Set Place := {place | ∃ unit ∈ units, unit.Names place}

section Named

variable {units more : List ChangeUnit} {unit : ChangeUnit} {place : Place}

theorem mem_named : place ∈ named units ↔ ∃ unit ∈ units, unit.Names place := Iff.rfl

theorem mem_named_append : place ∈ named (units ++ more) ↔ place ∈ named units ∨ place ∈ named more := by
  simp only [mem_named, List.mem_append, or_and_right, exists_or]

theorem mem_named_singleton : place ∈ named [unit] ↔ unit.Names place := by simp [named]

theorem named_perm (same : units.Perm more) : named units = named more := by
  ext place
  simp only [mem_named, same.mem_iff]

theorem ChangeUnit.Names.file (names : unit.Names place) : unit.fileIndex = place.fileIndex := by
  cases unit <;> cases place <;> simp_all [Names, fileIndex, Place.fileIndex]

end Named

/-! ## Normalizing -/

/-- The lines of the first unit do not start behind those of the other on the same side. -/
def Starts : ChangeUnit → ChangeUnit → Prop
  | .lines file side first _, .lines file' side' first' _ => file = file' → side = side' → first ≤ first'
  | _, _ => True

theorem starts_of_le {unit unit' : ChangeUnit} (le : unit.le unit' = true) : Starts unit unit' := by
  cases unit with
  | item => trivial
  | lines file side first stop =>
    cases unit' with
    | item => trivial
    | lines file' side' first' stop' =>
      rintro rfl rfl
      have le := of_decide_eq_true le
      simp only [Prod.Lex.toLex_le_toLex, lt_self_iff_false, true_and, false_or] at le
      omega

theorem le_trans' {a b c : ChangeUnit} (ab : a.le b = true) (bc : b.le c = true) : a.le c = true := by
  cases a <;> cases b <;> cases c <;>
    first
    | exact decide_eq_true ((of_decide_eq_true ab).trans (of_decide_eq_true bc))
    | exact Bool.noConfusion ab
    | exact Bool.noConfusion bc
    | rfl

theorem le_total' (a b : ChangeUnit) : (a.le b || b.le a) = true := by
  rw [Bool.or_eq_true]
  cases a <;> cases b <;> simp only [ChangeUnit.le, decide_eq_true_eq, Bool.false_eq_true, or_true, true_or, le_total]

theorem sorted_mergeSort (units : List ChangeUnit) :
    (units.mergeSort ChangeUnit.le).Pairwise Starts :=
  (@List.pairwise_mergeSort _ ChangeUnit.le (fun _ _ _ => le_trans') le_total' units).imp starts_of_le

section Push

variable {result units : List ChangeUnit} {unit : ChangeUnit}

theorem mem_named_pushed {place : Place} :
    place ∈ named (pushed result unit) ↔ place ∈ named result ∨ unit.Names place := by
  rw [pushed]
  split_ifs with same
  · exact ⟨.inl, fun held => held.elim id fun names => ⟨unit, List.mem_of_getLast? same, names⟩⟩
  · rw [mem_named_append, mem_named_singleton]

theorem getLast?_pushed : (pushed result unit).getLast? = some unit := by
  rw [pushed]
  split_ifs with same
  · exact same
  · exact List.getLast?_concat

/-- A unit is merged into the lines before it or pushed. -/
theorem pushUnit_cases (result : List ChangeUnit) (unit : ChangeUnit) :
    pushUnit result unit = pushed result unit ∨
      ∃ front file side leftFirst leftStop first stop, unit = .lines file side first stop ∧
        result = front ++ [.lines file side leftFirst leftStop] ∧ first ≤ leftStop ∧
          pushUnit result unit = front ++ [.lines file side leftFirst (max leftStop stop)] := by
  unfold pushUnit
  split
  · next leftFile leftSide leftFirst leftStop file side first stop last =>
    split_ifs with touches
    · obtain ⟨rfl, rfl, touches⟩ := touches
      obtain ⟨front, rfl⟩ := List.getLast?_eq_some_iff.mp last
      exact .inr ⟨front, _, _, _, _, _, _, rfl, rfl, touches, by rw [List.dropLast_concat]⟩
    · exact .inl rfl
  · exact .inl rfl

/-- A unit that is pushed adds what it names, and what comes after it starts no earlier. -/
theorem pushUnit_spec (behind : ∀ last, result.getLast? = some last → Starts last unit) :
    (∀ place, place ∈ named (pushUnit result unit) ↔ place ∈ named result ∨ unit.Names place) ∧
      ∀ later, Starts unit later → ∀ last, (pushUnit result unit).getLast? = some last → Starts last later := by
  obtain same | ⟨front, file, side, leftFirst, leftStop, first, stop, rfl, rfl, touches, same⟩ :=
    pushUnit_cases result unit
  · rw [same, getLast?_pushed]
    exact ⟨fun place => mem_named_pushed, fun later starts last held => Option.some.inj held ▸ starts⟩
  · have start : leftFirst ≤ first := behind _ List.getLast?_concat rfl rfl
    rw [same, List.getLast?_concat]
    constructor
    · intro place
      simp only [mem_named_append, mem_named_singleton, or_assoc]
      refine or_congr_right ?_
      cases place with
      | item => exact (or_self_iff).symm
      | line file' side' number =>
        simp only [ChangeUnit.Names]
        constructor
        · rintro ⟨rfl, rfl, low, high⟩
          rcases lt_max_iff.mp high with high | high
          · exact .inl ⟨rfl, rfl, low, high⟩
          · rcases lt_or_ge number leftStop with inside | outside
            · exact .inl ⟨rfl, rfl, low, inside⟩
            · exact .inr ⟨rfl, rfl, touches.trans outside, high⟩
        · rintro (⟨rfl, rfl, low, high⟩ | ⟨rfl, rfl, low, high⟩)
          · exact ⟨rfl, rfl, low, lt_max_of_lt_left high⟩
          · exact ⟨rfl, rfl, start.trans low, lt_max_of_lt_right high⟩
    · intro later starts last held
      obtain rfl := Option.some.inj held
      cases later with
      | item => trivial
      | lines => exact fun own own' => start.trans (starts own own')

theorem mem_named_foldl (sorted : units.Pairwise Starts)
    (behind : ∀ last, result.getLast? = some last → ∀ unit ∈ units, Starts last unit) {place : Place} :
    place ∈ named (units.foldl pushUnit result) ↔ place ∈ named result ∨ place ∈ named units := by
  induction units generalizing result with
  | nil => simp [named]
  | cons unit units ih =>
    obtain ⟨first, rest⟩ := List.pairwise_cons.mp sorted
    obtain ⟨adds, after⟩ := @pushUnit_spec result unit fun last held =>
      behind last held unit (List.mem_cons_self ..)
    rw [List.foldl_cons, ih rest fun last held later mem => after later (first later mem) last held, adds,
      or_assoc, ← List.singleton_append, mem_named_append, mem_named_singleton]

/-- Normalized units name what the units do. -/
theorem named_normalize (units : List ChangeUnit) : named (normalize units) = named units := by
  ext place
  have merged := @mem_named_foldl [] _ (sorted_mergeSort units) (fun _ none_ => nomatch none_) place
  rw [named_perm (List.mergeSort_perm units ChangeUnit.le)] at merged
  exact merged.trans ⟨fun held => held.elim (fun ⟨_, mem, _⟩ => (List.not_mem_nil mem).elim) id, .inr⟩

theorem pushUnit_ne_nil : pushUnit result unit ≠ [] := by
  obtain same | ⟨front, _, _, _, _, _, _, -, -, -, same⟩ := pushUnit_cases result unit
  · intro empty
    have last := @getLast?_pushed result unit
    rw [← same, empty] at last
    cases last
  · rw [same]
    exact List.concat_ne_nil _ _

theorem normalize_eq_nil : normalize units = [] ↔ units = [] := by
  have length := (List.mergeSort_perm units ChangeUnit.le).length_eq
  rw [normalize]
  generalize units.mergeSort ChangeUnit.le = sorted at length
  rcases List.eq_nil_or_concat sorted with rfl | ⟨front, last, rfl⟩
  · exact iff_of_true rfl (List.length_eq_zero_iff.mp length.symm)
  · rw [List.concat_eq_append, List.foldl_append]
    refine iff_of_false pushUnit_ne_nil fun empty => ?_
    rw [empty] at length
    simp at length

end Push

/-! ## Subtracting -/

/-- A range of lines that is empty or inverted, and that no range of the others reaches around. -/
def ChangeUnit.Lingers (others : List ChangeUnit) : ChangeUnit → Prop
  | .lines file side first stop => stop ≤ first ∧
      ∀ first' stop', .lines file side first' stop' ∈ others → ¬(first' < stop ∧ first < stop')
  | .item .. => False

/-- The cuts that a list of units makes in one side of a file. -/
def cutsOf (file : Nat) (side : SourceSide) (units : List ChangeUnit) : List (Nat × Nat) :=
  units.filterMap fun
    | .lines otherFile otherSide first stop =>
      if file = otherFile ∧ side = otherSide then some (first, stop) else none
    | .item .. => none

section Subtract

variable {left right : List ChangeUnit} {file : Nat} {side : SourceSide}

theorem mem_cutsOf {cut : Nat × Nat} :
    cut ∈ cutsOf file side right ↔ .lines file side cut.1 cut.2 ∈ right := by
  simp only [cutsOf, List.mem_filterMap]
  constructor
  · rintro ⟨unit, mem, held⟩
    cases unit with
    | item => cases held
    | lines =>
      simp only [Option.ite_none_right_eq_some, Option.some.injEq] at held
      obtain ⟨⟨rfl, rfl⟩, rfl⟩ := held
      exact mem
  · exact fun mem => ⟨_, mem, by simp⟩

theorem foldl_cutPieces (pieces : List (Nat × Nat)) :
    right.foldl (cutPieces file side) pieces = cutSpans (cutsOf file side right) pieces := by
  induction right generalizing pieces with
  | nil => rfl
  | cons unit right ih =>
    rw [List.foldl_cons, ih]
    cases unit with
    | item => rfl
    | lines otherFile otherSide first stop =>
      by_cases own : file = otherFile ∧ side = otherSide
      · simp only [cutPieces, cutsOf, if_pos own, List.filterMap_cons]
        rfl
      · simp only [cutPieces, cutsOf, if_neg own, List.filterMap_cons]

theorem mem_points_cutsOf {number : Nat} :
    number ∈ points (cutsOf file side right) ↔ .line file side number ∈ named right := by
  constructor
  · rintro ⟨cut, mem, low, high⟩
    exact ⟨_, mem_cutsOf.mp mem, rfl, rfl, low, high⟩
  · rintro ⟨unit, mem, names⟩
    cases unit with
    | item => exact names.elim
    | lines =>
      obtain ⟨rfl, rfl, low, high⟩ := names
      exact ⟨(_, _), mem_cutsOf.mpr mem, low, high⟩

theorem mem_named_subtractUnit {unit : ChangeUnit} {place : Place} :
    place ∈ named (subtractUnit right unit) ↔ unit.Names place ∧ place ∉ named right := by
  cases unit with
  | item file name =>
    rw [subtractUnit]
    cases place with
    | line => split_ifs <;> simp [named, ChangeUnit.Names]
    | item file' name' =>
      have own : .item file' name' ∈ named right ↔ .item file' name' ∈ right := by
        constructor
        · rintro ⟨unit, mem, names⟩
          cases unit with
          | lines => exact names.elim
          | item =>
            obtain ⟨rfl, rfl⟩ := names
            exact mem
        · exact fun mem => ⟨_, mem, rfl, rfl⟩
      rw [own]
      split_ifs with held
      · refine iff_of_false (fun ⟨_, mem, _⟩ => List.not_mem_nil mem) ?_
        rintro ⟨⟨rfl, rfl⟩, outside⟩
        exact outside held
      · rw [mem_named_singleton]
        refine ⟨fun names => ⟨names, ?_⟩, And.left⟩
        obtain ⟨rfl, rfl⟩ := names
        exact held
  | lines file side first stop =>
    rw [subtractUnit, foldl_cutPieces]
    cases place with
    | item => simp [named, ChangeUnit.Names]
    | line file' side' number =>
      have left := @mem_points_cutSpans _ _ (cutsOf file side right) [(first, stop)] number
      rw [mem_points_cutsOf, mem_points_singleton] at left
      constructor
      · rintro ⟨unit, mem, names⟩
        obtain ⟨piece, held, rfl⟩ := List.mem_map.mp mem
        obtain ⟨rfl, rfl, low, high⟩ := names
        obtain ⟨inside, outside⟩ := left.mp ⟨piece, held, low, high⟩
        exact ⟨⟨rfl, rfl, inside⟩, outside⟩
      · rintro ⟨⟨rfl, rfl, inside⟩, outside⟩
        obtain ⟨piece, held, low, high⟩ := left.mpr ⟨inside, outside⟩
        exact ⟨_, List.mem_map.mpr ⟨piece, held, rfl⟩, rfl, rfl, low, high⟩

/-- What is left names what the others do not. -/
theorem named_subtract (left right : List ChangeUnit) : named (subtract left right) = named left \ named right := by
  ext place
  rw [subtract, named_normalize]
  simp only [mem_named, List.mem_flatMap, Set.mem_sdiff]
  constructor
  · rintro ⟨rest, ⟨unit, mem, held⟩, names⟩
    obtain ⟨own, outside⟩ := mem_named_subtractUnit.mp ⟨rest, held, names⟩
    exact ⟨⟨unit, mem, own⟩, outside⟩
  · rintro ⟨⟨unit, mem, own⟩, outside⟩
    obtain ⟨rest, held, names⟩ := mem_named_subtractUnit.mpr ⟨own, outside⟩
    exact ⟨rest, ⟨unit, mem, held⟩, names⟩

theorem subtractUnit_eq_nil {unit : ChangeUnit} : subtractUnit right unit = [] ↔
    (∀ place, unit.Names place → place ∈ named right) ∧ ¬unit.Lingers right := by
  cases unit with
  | item file name =>
    rw [subtractUnit]
    split_ifs with held
    · refine iff_of_true rfl ⟨fun place names => ⟨_, held, names⟩, id⟩
    · refine iff_of_false id fun ⟨within, _⟩ => held ?_
      obtain ⟨unit, mem, names⟩ := within (.item file name) ⟨rfl, rfl⟩
      cases unit with
      | lines => exact names.elim
      | item =>
        obtain ⟨rfl, rfl⟩ := names
        exact mem
  | lines file side first stop =>
    rw [subtractUnit, foldl_cutPieces, List.map_eq_nil_iff]
    rcases lt_or_ge first stop with proper | hollow
    · rw [cutSpans_proper_eq_nil proper]
      constructor
      · refine fun covered => ⟨fun place names => ?_, fun lingers => absurd lingers.1 (not_le.mpr proper)⟩
        cases place with
        | item => exact names.elim
        | line =>
          obtain ⟨rfl, rfl, low, high⟩ := names
          exact mem_points_cutsOf.mp (covered _ low high)
      · exact fun ⟨within, _⟩ number low high =>
          mem_points_cutsOf.mpr (within (.line file side number) ⟨rfl, rfl, low, high⟩)
    · rw [cutSpans_hollow_eq_nil hollow]
      constructor
      · rintro ⟨cut, mem, around⟩
        refine ⟨fun place names => ?_, fun lingers => lingers.2 _ _ (mem_cutsOf.mp mem) around⟩
        cases place with
        | item => exact names.elim
        | line => exact absurd (names.2.2.1.trans_lt names.2.2.2) (not_lt.mpr hollow)
      · rintro ⟨-, stays⟩
        by_contra none_
        exact stays ⟨hollow, fun first' stop' mem around =>
          none_ ⟨(first', stop'), mem_cutsOf.mpr mem, around⟩⟩

/-- Nothing is left when the others name all of it and no range without lines lingers. -/
theorem subtract_eq_nil : subtract left right = [] ↔
    named left ⊆ named right ∧ ∀ unit ∈ left, ¬unit.Lingers right := by
  rw [subtract, normalize_eq_nil, List.flatMap_eq_nil_iff]
  simp only [subtractUnit_eq_nil]
  exact ⟨fun all => ⟨fun place ⟨unit, mem, names⟩ => (all unit mem).1 place names, fun unit mem => (all unit mem).2⟩,
    fun ⟨within, none_⟩ unit mem => ⟨fun place names => within ⟨unit, mem, names⟩, none_ unit mem⟩⟩

end Subtract

end ProgressiveReviewer.Ledger
