import ProgressiveReviewer.Ledger.Units
import Mathlib.Tactic.Tauto

/-! The exclusion ledger after any sequence of results: what it excludes, what it refuses, and
which files it excludes as a whole. -/

namespace ProgressiveReviewer.Ledger

open Library Hunks
open Explore (SourceSide)

/-- A line that a diff of the comparison adds or deletes. -/
def Comparison.Changes (comparison : Comparison) (file : Nat) (side : SourceSide) (line : Nat) : Prop :=
  ∃ changed diff, comparison.files[file]? = some changed ∧ comparison.diffs[file]? = some diff ∧
    ∃ text, (match side with | .new => .add line text | .old => .delete line text) ∈
      Parsers.parseFileDiff diff changed.toChangedFile

namespace ChangeInventory

variable {inventory : ChangeInventory} {index : Nat}

/-- A unit of one changed line. -/
def ofLine (index : Nat) (rows : List DiffRow) (unit : ChangeUnit) : Prop :=
  ∃ side line text, (match side with | .new => .add line text | .old => .delete line text) ∈ rows ∧
    unit = .lines index side line (min (line + 1) lastLine)

theorem mem_recordRow {items : Items} {row : DiffRow} {unit : ChangeUnit}
    (mem : unit ∈ (inventory.recordRow index items row).2.1.units) :
    unit ∈ inventory.units ∨ ofLine index [row] unit := by
  have pushed {side : SourceSide} {line : Nat} (mem : unit ∈ (inventory.pushLine index side line).units) :
      unit ∈ inventory.units ∨ unit = .lines index side line (min (line + 1) lastLine) := by
    simpa [pushLine] using mem
  cases row with
  | add line text => exact (pushed mem).imp_right fun same => ⟨.new, line, text, List.mem_singleton_self _, same⟩
  | delete line text => exact (pushed mem).imp_right fun same => ⟨.old, line, text, List.mem_singleton_self _, same⟩
  | metadata text =>
    rw [recordRow] at mem
    split_ifs at mem <;> exact .inl mem
  | notice kind text => cases kind <;> exact .inl mem
  | _ => exact .inl mem

theorem mem_recordRows {rows : List DiffRow} {unit : ChangeUnit}
    (mem : unit ∈ (inventory.recordRows index rows).2.1.units) :
    unit ∈ inventory.units ∨ ofLine index rows unit := by
  have all : ∀ unit ∈ (inventory.recordRows index rows).2.1.units,
      unit ∈ inventory.units ∨ ofLine index rows unit := by
    unfold recordRows
    apply List.foldlRecOn (motive := fun state : Bool × ChangeInventory × Items =>
      ∀ unit ∈ state.2.1.units, unit ∈ inventory.units ∨ ofLine index rows unit)
    · exact fun unit mem => .inl mem
    · intro ⟨had, kept, items⟩ before row held unit mem
      rcases mem_recordRow mem with mem | ⟨side, line, text, own, same⟩
      · exact before unit mem
      · exact .inr ⟨side, line, text, List.mem_singleton.mp own ▸ held, same⟩
  exact all unit mem

theorem mem_captureFile {file : Parsers.ChangedFile} {diff : Bytes} {unit : ChangeUnit}
    (mem : unit ∈ (inventory.captureFile index file diff).units) :
    unit ∈ inventory.units ∨ ofLine index (Parsers.parseFileDiff diff file.toChangedFile) unit ∨
      ∃ name, unit = .item index name := by
  rcases List.mem_append.mp mem with mem | mem
  · exact (mem_recordRows mem).imp_right .inl
  · obtain ⟨name, -, same⟩ := List.mem_map.mp mem
    exact .inr (.inr ⟨name, same.symm⟩)

/-- The lines of a captured inventory are lines that the comparison changes. -/
theorem changes_of_captured {comparison : Comparison} {file line : Nat} {side : SourceSide}
    (held : .line file side line ∈ named (capture comparison).units) :
    comparison.Changes file side line := by
  unfold capture at held
  split_ifs at held
  case neg =>
    obtain ⟨_, mem, _⟩ := held
    exact (List.not_mem_nil mem).elim
  rw [named_normalize] at held
  obtain ⟨unit, mem, names⟩ := held
  have all : ∀ unit ∈ ((comparison.files.zip comparison.diffs).zipIdx.foldl
      (fun (result : ChangeInventory) entry => result.captureFile entry.2 entry.1.1 entry.1.2)
      ⟨[], true⟩).units, ∀ file side first stop, unit = .lines file side first stop → ∀ line,
        first ≤ line → line < stop → comparison.Changes file side line := by
    apply List.foldlRecOn (motive := fun result : ChangeInventory => ∀ unit ∈ result.units,
      ∀ file side first stop, unit = .lines file side first stop → ∀ line, first ≤ line →
        line < stop → comparison.Changes file side line)
    · exact fun _ mem => (List.not_mem_nil mem).elim
    · rintro result before ⟨⟨changed, diff⟩, index⟩ entry unit mem file side first stop rfl number low high
      rcases mem_captureFile mem with mem | ⟨side', line', text, row, same⟩ | ⟨name, same⟩
      · exact before _ mem _ _ _ _ rfl number low high
      · obtain ⟨rfl, rfl, rfl, rfl⟩ := ChangeUnit.lines.inj same
        have own : number = first := by omega
        have entry := List.mem_zipIdx_iff_getElem?.mp entry
        obtain ⟨changed', diff'⟩ := List.getElem?_zip_eq_some.mp entry
        exact ⟨changed, diff, changed', diff', text, own ▸ row⟩
      · cases same
  cases unit with
  | item => exact names.elim
  | lines =>
    obtain ⟨rfl, rfl, low, high⟩ := names
    exact all _ mem _ _ _ _ rfl line low high

end ChangeInventory

/-! ## Runs -/

namespace SignificanceLedger

/-- A sequence of results, each recorded or refused. -/
def recordAll (ledger : SignificanceLedger) (results : List SignificanceResult) : SignificanceLedger :=
  results.foldl (fun ledger result => (ledger.recordSignificance result).2) ledger

/-- The results of a sequence that are recorded. -/
def accepted (ledger : SignificanceLedger) : List SignificanceResult → List SignificanceResult
  | [] => []
  | result :: results =>
    let (new, after) := ledger.recordSignificance result
    if new then result :: after.accepted results else after.accepted results

variable {ledger : SignificanceLedger} {inventory : ChangeInventory}
  {done results : List SignificanceResult} {result : SignificanceResult}

/-- Some accepted result finds a place insignificant. -/
def Judged (done : List SignificanceResult) (place : Place) : Prop :=
  ∃ result ∈ done, result.outcome = .insignificant ∧ place ∈ named result.units

/-- What a ledger holds once some results are recorded. -/
structure Holds (inventory : ChangeInventory) (ledger : SignificanceLedger)
    (done : List SignificanceResult) : Prop where
  inherits : ledger.inventory = inventory
  ids : ∀ id, ledger.classifications.contains id = true ↔ ∃ result ∈ done, result.id = id
  excluded : ∀ place, place ∈ named ledger.excluded ↔ Judged done place
  within : ∀ result ∈ done, named result.units ⊆ named inventory.units

theorem holds_ofInventory (inventory : ChangeInventory) : Holds inventory (ofInventory inventory) [] where
  inherits := rfl
  ids _ := ⟨fun held => Bool.noConfusion held, fun ⟨_, mem, _⟩ => (List.not_mem_nil mem).elim⟩
  excluded _ := ⟨fun ⟨_, mem, _⟩ => (List.not_mem_nil mem).elim, fun ⟨_, mem, _⟩ => (List.not_mem_nil mem).elim⟩
  within _ mem := (List.not_mem_nil mem).elim

/-- When a result is refused. -/
theorem Holds.refused_iff (holds : Holds inventory ledger done) :
    (ledger.recordSignificance result).1 = false ↔ (∃ old ∈ done, old.id = result.id) ∨
      result.units = [] ∨ ¬named result.units ⊆ named inventory.units ∨
        ∃ unit ∈ result.units, unit.Lingers inventory.units := by
  have left : (!(subtract result.units ledger.inventory.units).isEmpty) = true ↔
      ¬named result.units ⊆ named inventory.units ∨ ∃ unit ∈ result.units, unit.Lingers inventory.units := by
    rw [Bool.not_eq_true', ← Bool.not_eq_true, List.isEmpty_iff, subtract_eq_nil, holds.inherits, not_and_or]
    simp only [not_forall, not_not, exists_prop]
  unfold recordSignificance
  split_ifs with refused
  all_goals
    rw [holds.ids, List.isEmpty_iff, left] at refused
    simpa using refused

theorem refused_keeps (refused : (ledger.recordSignificance result).1 = false) :
    (ledger.recordSignificance result).2 = ledger := by
  unfold recordSignificance at refused ⊢
  split_ifs at refused ⊢
  rfl

/-- A recorded result joins the ones before it. -/
theorem Holds.record (holds : Holds inventory ledger done)
    (new : (ledger.recordSignificance result).1 = true) :
    Holds inventory (ledger.recordSignificance result).2 (result :: done) := by
  have passed : ¬(ledger.recordSignificance result).1 = false := by rw [new]; exact Bool.noConfusion
  rw [holds.refused_iff] at passed
  simp only [not_or, not_not] at passed
  have ran : (ledger.recordSignificance result).2 = { ledger with
      classifications := ledger.classifications.insert result.id result
      excluded := if result.outcome = .insignificant
        then normalize (ledger.excluded ++ result.units) else ledger.excluded } := by
    unfold recordSignificance at new ⊢
    split_ifs at new ⊢ <;> rfl
  rw [ran]
  constructor
  · exact holds.inherits
  · intro id
    dsimp only
    rw [SortedMap.contains_insert, holds.ids]
    simp only [List.mem_cons, exists_eq_or_imp]
  · intro place
    have joined : Judged (result :: done) place ↔
        (result.outcome = .insignificant ∧ place ∈ named result.units) ∨ Judged done place := by
      simp only [Judged, List.mem_cons, exists_eq_or_imp]
    rw [joined, ← holds.excluded]
    dsimp only
    split_ifs with harmless
    · rw [named_normalize, mem_named_append]
      tauto
    · tauto
  · rintro other (_ | ⟨_, mem⟩)
    · exact passed.2.2.1
    · exact holds.within other mem

theorem Holds.congr (holds : Holds inventory ledger done) {done' : List SignificanceResult}
    (same : ∀ result, result ∈ done ↔ result ∈ done') : Holds inventory ledger done' where
  inherits := holds.inherits
  ids id := (holds.ids id).trans (by simp only [same])
  excluded place := (holds.excluded place).trans (by simp only [Judged, same])
  within result mem := holds.within result ((same result).mpr mem)

theorem Holds.recordAll (holds : Holds inventory ledger done) (results : List SignificanceResult) :
    Holds inventory (ledger.recordAll results) (ledger.accepted results ++ done) := by
  induction results generalizing ledger done with
  | nil => exact holds
  | cons result results ih =>
    cases new : (ledger.recordSignificance result).1 with
    | false =>
      have same := refused_keeps new
      simp only [SignificanceLedger.recordAll, List.foldl_cons, accepted, new, same, Bool.false_eq_true, if_false]
      exact ih holds
    | true =>
      simp only [SignificanceLedger.recordAll, List.foldl_cons, accepted, new, if_true]
      refine (ih (holds.record new)).congr fun other => ?_
      simp only [List.mem_append, List.mem_cons]
      tauto

/-- A result that only its identity can get refused. -/
def Acceptable (inventory : ChangeInventory) (result : SignificanceResult) : Prop :=
  result.units ≠ [] ∧ named result.units ⊆ named inventory.units ∧
    ∀ unit ∈ result.units, ¬unit.Lingers inventory.units

theorem Holds.accepted_iff (holds : Holds inventory ledger done) :
    (ledger.recordSignificance result).1 = true ↔
      (∀ old ∈ done, old.id ≠ result.id) ∧ Acceptable inventory result := by
  rw [← Bool.not_eq_false, holds.refused_iff, Acceptable]
  simp only [not_or, not_exists, not_and, not_not, ne_eq]

theorem Holds.accepted_sound (holds : Holds inventory ledger done) (results : List SignificanceResult) :
    (∀ result ∈ ledger.accepted results, Acceptable inventory result ∧ ∀ old ∈ done, old.id ≠ result.id) ∧
      ((ledger.accepted results).map (·.id)).Nodup := by
  induction results generalizing ledger done with
  | nil => exact ⟨fun _ mem => (List.not_mem_nil mem).elim, List.nodup_nil⟩
  | cons result results ih =>
    cases new : (ledger.recordSignificance result).1 with
    | false =>
      simp only [accepted, new, refused_keeps new, Bool.false_eq_true, if_false]
      exact ih holds
    | true =>
      obtain ⟨fresh, own⟩ := holds.accepted_iff.mp new
      obtain ⟨each, apart⟩ := ih (holds.record new)
      simp only [accepted, new, if_true, List.map_cons, List.nodup_cons]
      refine ⟨?_, fun mem => ?_, apart⟩
      · rintro other (_ | ⟨_, mem⟩)
        · exact ⟨own, fresh⟩
        · exact ⟨(each other mem).1, fun old held => (each other mem).2 old (List.mem_cons_of_mem _ held)⟩
      · obtain ⟨other, mem, same⟩ := List.mem_map.mp mem
        exact (each other mem).2 result (List.mem_cons_self ..) same.symm

/-- Acceptable results of new identities are all recorded. -/
theorem Holds.accepts_all (holds : Holds inventory ledger done)
    (each : ∀ result ∈ results, Acceptable inventory result ∧ ∀ old ∈ done, old.id ≠ result.id)
    (apart : (results.map (·.id)).Nodup) : ledger.accepted results = results := by
  induction results generalizing ledger done with
  | nil => rfl
  | cons result results ih =>
    obtain ⟨fresh, apart⟩ := List.nodup_cons.mp apart
    obtain ⟨own, other⟩ := each result (List.mem_cons_self ..)
    have new : (ledger.recordSignificance result).1 = true := holds.accepted_iff.mpr ⟨other, own⟩
    simp only [accepted, new, if_true]
    refine congrArg _ (ih (holds.record new) (fun later mem => ?_) apart)
    obtain ⟨own, other⟩ := each later (List.mem_cons_of_mem _ mem)
    refine ⟨own, ?_⟩
    rintro old (_ | ⟨_, held⟩)
    · exact fun same => fresh (List.mem_map.mpr ⟨later, mem, same.symm⟩)
    · exact other old held

theorem contains_excludedLines {file line : Nat} {side : SourceSide} :
    (ledger.excludedLines file).contains side line = true ↔ .line file side line ∈ named ledger.excluded := by
  simp only [excludedLines, ExcludedLines.contains, List.any_eq_true, List.mem_filterMap]
  constructor
  · rintro ⟨⟨excludedSide, first, stop⟩, ⟨unit, mem, held⟩, inside⟩
    cases unit with
    | item => cases held
    | lines =>
      simp only [Option.ite_none_right_eq_some, Option.some.injEq] at held
      obtain ⟨rfl, held⟩ := held
      cases held
      obtain ⟨rfl, bounds⟩ := of_decide_eq_true inside
      exact ⟨_, mem, rfl, rfl, bounds⟩
  · rintro ⟨unit, mem, names⟩
    cases unit with
    | item => exact names.elim
    | lines =>
      obtain ⟨rfl, rfl, inside⟩ := names
      exact ⟨_, ⟨_, mem, if_pos rfl⟩, decide_eq_true ⟨rfl, inside⟩⟩

/-- A file of the inventory without a range that lingers is excluded when all it names is. -/
theorem mem_fullyExcludedFiles {comparison : Comparison} {file : Nat} :
    file ∈ ledger.fullyExcludedFiles comparison ↔ file < comparison.files.length ∧
      (∃ unit ∈ ledger.inventory.units, unit.fileIndex = file) ∧
      ledger.inventory.fileComplete comparison file = true ∧
      (∀ place ∈ named ledger.inventory.units, place.fileIndex = file → place ∈ named ledger.excluded) ∧
      ∀ unit ∈ ledger.inventory.units, unit.fileIndex = file → ¬unit.Lingers ledger.excluded := by
  have own {place : Place} : place ∈ named (ledger.inventory.units.filter fun unit => unit.fileIndex = file) ↔
      place ∈ named ledger.inventory.units ∧ place.fileIndex = file := by
    simp only [mem_named, List.mem_filter, decide_eq_true_eq]
    constructor
    · rintro ⟨unit, ⟨mem, index⟩, names⟩
      exact ⟨⟨unit, mem, names⟩, names.file.symm.trans index⟩
    · rintro ⟨⟨unit, mem, names⟩, index⟩
      exact ⟨unit, ⟨mem, names.file.trans index⟩, names⟩
  simp only [fullyExcludedFiles, List.mem_filter, List.mem_range, Bool.and_eq_true, List.isEmpty_iff,
    subtract_eq_nil, Set.subset_def, own, Bool.not_eq_true', List.isEmpty_eq_false_iff,
    List.filter_eq_nil_iff, decide_eq_true_eq, ne_eq, not_forall, not_not, and_imp]
  simp only [exists_prop]
  tauto

/-- What a ledger that has heard `results` shows, what it answers to one more, and whether it
excludes a file as a whole. -/
structure Exact (inventory : ChangeInventory) (results : List SignificanceResult)
    (result : SignificanceResult) (comparison : Comparison) (file : Nat) : Prop where
  /-- A line is excluded when an accepted result finds it insignificant. -/
  lines : ∀ file side line, (((ofInventory inventory).recordAll results).excludedLines file).contains side line =
    true ↔ Judged ((ofInventory inventory).accepted results) (.line file side line)
  /-- Only lines of the inventory are. -/
  listed : ∀ file side line, (((ofInventory inventory).recordAll results).excludedLines file).contains side line =
    true → .line file side line ∈ named inventory.units
  /-- Only lines that the comparison changes are. -/
  changed : ∀ captured : Comparison, inventory = .capture captured → ∀ file side line,
    (((ofInventory inventory).recordAll results).excludedLines file).contains side line = true →
      captured.Changes file side line
  /-- A result is refused for its identity, for naming nothing or for naming other changes. -/
  refused : (((ofInventory inventory).recordAll results).recordSignificance result).1 = false ↔
    (∃ old ∈ (ofInventory inventory).accepted results, old.id = result.id) ∨ result.units = [] ∨
      ∃ place ∈ named result.units, place ∉ named inventory.units
  kept : (((ofInventory inventory).recordAll results).recordSignificance result).1 = false →
    (((ofInventory inventory).recordAll results).recordSignificance result).2 =
      (ofInventory inventory).recordAll results
  /-- A file is excluded when it has changes, all are listed and all are found insignificant. -/
  files : file ∈ ((ofInventory inventory).recordAll results).fullyExcludedFiles comparison ↔
    file < comparison.files.length ∧ (∃ unit ∈ inventory.units, unit.fileIndex = file) ∧
      inventory.fileComplete comparison file = true ∧
      ∀ place ∈ named inventory.units, place.fileIndex = file →
        Judged ((ofInventory inventory).accepted results) place
  /-- The accepted results exclude the same lines in any order. -/
  order : ∀ others, others.Perm ((ofInventory inventory).accepted results) →
    (ofInventory inventory).accepted others = others ∧ ∀ file side line,
      (((ofInventory inventory).recordAll others).excludedLines file).contains side line =
        (((ofInventory inventory).recordAll results).excludedLines file).contains side line

/-- A new result names only listed changes, and has a range without lines that lingers. -/
def SpoiledResult (inventory : ChangeInventory) (results : List SignificanceResult)
    (result : SignificanceResult) : Prop :=
  (∀ old ∈ (ofInventory inventory).accepted results, old.id ≠ result.id) ∧
    named result.units ⊆ named inventory.units ∧ ∃ unit ∈ result.units, unit.Lingers inventory.units

/-- All changes of a complete file are found insignificant, and it has a range without lines
that lingers. -/
def SpoiledFile (inventory : ChangeInventory) (results : List SignificanceResult)
    (comparison : Comparison) (file : Nat) : Prop :=
  file < comparison.files.length ∧ inventory.fileComplete comparison file = true ∧
    (∀ place ∈ named inventory.units, place.fileIndex = file →
      Judged ((ofInventory inventory).accepted results) place) ∧
    ∃ unit ∈ inventory.units, unit.fileIndex = file ∧
      unit.Lingers ((ofInventory inventory).recordAll results).excluded

/-- The ledger is exact but for ranges without lines, and the operations it is made of are
union and difference of what units name. -/
theorem exact_iff (inventory : ChangeInventory) (results : List SignificanceResult)
    (result : SignificanceResult) (comparison : Comparison) (file : Nat) :
    (∀ left right, named (normalize (left ++ right)) = named left ∪ named right ∧
      named (subtract left right) = named left \ named right) ∧
    (Exact inventory results result comparison file ↔
      ¬SpoiledResult inventory results result ∧ ¬SpoiledFile inventory results comparison file) := by
  refine ⟨fun left right => ⟨?_, named_subtract left right⟩, ?_⟩
  · ext place
    rw [named_normalize, mem_named_append, Set.mem_union]
  have holds : Holds inventory ((ofInventory inventory).recordAll results)
      ((ofInventory inventory).accepted results) := by
    simpa using (holds_ofInventory inventory).recordAll results
  have outside : (∃ place ∈ named result.units, place ∉ named inventory.units) ↔
      ¬named result.units ⊆ named inventory.units := by
    rw [Set.not_subset]
  have files := @mem_fullyExcludedFiles ((ofInventory inventory).recordAll results) comparison file
  rw [holds.inherits] at files
  simp only [holds.excluded] at files
  constructor
  · intro exact_
    constructor
    · rintro ⟨fresh, within, unit, mem, lingers⟩
      have refused := holds.refused_iff.mpr (.inr (.inr (.inr ⟨unit, mem, lingers⟩)))
      rcases exact_.refused.mp refused with ⟨old, held, same⟩ | empty | ⟨place, named_, other⟩
      · exact fresh old held same
      · rw [empty] at mem
        exact List.not_mem_nil mem
      · exact other (within named_)
    · rintro ⟨bound, complete, judged, unit, mem, index, lingers⟩
      have whole := exact_.files.mpr ⟨bound, ⟨unit, mem, index⟩, complete, judged⟩
      exact (files.mp whole).2.2.2.2 unit mem index lingers
  · rintro ⟨result_, file_⟩
    have lines : ∀ file side line,
        (((ofInventory inventory).recordAll results).excludedLines file).contains side line = true ↔
          Judged ((ofInventory inventory).accepted results) (.line file side line) :=
      fun _ _ _ => contains_excludedLines.trans (holds.excluded _)
    have listed : ∀ file side line,
        (((ofInventory inventory).recordAll results).excludedLines file).contains side line = true →
          .line file side line ∈ named inventory.units := by
      intro file side line held
      obtain ⟨judge, mem, -, names⟩ := (lines file side line).mp held
      exact holds.within judge mem names
    refine ⟨lines, listed, ?_, ?_, refused_keeps, ?_, fun others same => ?_⟩
    · rintro captured rfl file side line held
      exact ChangeInventory.changes_of_captured (listed file side line held)
    · rw [holds.refused_iff, outside]
      constructor
      · rintro (known | empty | other | ⟨unit, mem, lingers⟩)
        · exact .inl known
        · exact .inr (.inl empty)
        · exact .inr (.inr other)
        · by_contra accepted
          simp only [not_or, not_exists, not_and, not_not] at accepted
          exact result_ ⟨accepted.1, accepted.2.2, unit, mem, lingers⟩
      · rintro (known | empty | other)
        · exact .inl known
        · exact .inr (.inl empty)
        · exact .inr (.inr (.inl other))
    · rw [files]
      constructor
      · rintro ⟨bound, some_, complete, judged, -⟩
        exact ⟨bound, some_, complete, judged⟩
      · rintro ⟨bound, some_, complete, judged⟩
        exact ⟨bound, some_, complete, judged, fun unit mem index lingers =>
          file_ ⟨bound, complete, judged, unit, mem, index, lingers⟩⟩
    · obtain ⟨each, apart⟩ := (holds_ofInventory inventory).accepted_sound results
      have all : (ofInventory inventory).accepted others = others :=
        (holds_ofInventory inventory).accepts_all (fun other mem => each other (same.mem_iff.mp mem))
          ((same.map _).nodup_iff.mpr apart)
      refine ⟨all, fun file side line => Bool.eq_iff_iff.mpr ?_⟩
      have holds' : Holds inventory ((ofInventory inventory).recordAll others) others := by
        simpa [all] using (holds_ofInventory inventory).recordAll others
      rw [contains_excludedLines, contains_excludedLines, holds'.excluded, holds.excluded]
      simp only [Judged, same.mem_iff]

/-- A range of no lines behind the listed ones gets a result refused. -/
theorem refused_for_nothing :
    let inventory : ChangeInventory := ⟨[.lines 0 .new 1 3], true⟩
    let result : SignificanceResult := ⟨"result", [.lines 0 .new 1 3, .lines 0 .new 3 3], .insignificant⟩
    ((ofInventory inventory).recordSignificance result).1 = false ∧
      (ofInventory inventory).classifications.contains result.id = false ∧ result.units ≠ [] ∧
      ∀ place ∈ named result.units, place ∈ named inventory.units := by
  intro inventory result
  refine ⟨(holds_ofInventory inventory).refused_iff.mpr ?_, rfl, List.cons_ne_nil _ _, ?_⟩
  · refine .inr (.inr (.inr ⟨.lines 0 .new 3 3, by simp [result], le_rfl, fun first stop mem around => ?_⟩))
    simp only [inventory, List.mem_singleton, ChangeUnit.lines.injEq, true_and] at mem
    omega
  · rintro place ⟨unit, mem, names⟩
    simp only [result, List.mem_cons, List.not_mem_nil, or_false] at mem
    rcases mem with rfl | rfl
    · exact ⟨_, List.mem_singleton_self _, names⟩
    · cases place with
      | item => exact names.elim
      | line => exact absurd (names.2.2.1.trans_lt names.2.2.2) (lt_irrefl _)

end SignificanceLedger

end ProgressiveReviewer.Ledger
