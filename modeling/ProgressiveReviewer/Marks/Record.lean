import ProgressiveReviewer.Library.Base64
import ProgressiveReviewer.Library.Json
import ProgressiveReviewer.Marks.Store
import Mathlib.Data.List.Sort

/-! The record of one review mark as its file keeps it
(`review-store/src/checkpoint.rs`): paths as text or Base64, file versions as Base64,
authors as written. -/

namespace ProgressiveReviewer.Marks

open Library Hunks

/-- A mark that covers the whole file at its baseline commit. -/
def fileSchemaVersion : Nat := 1

/-- A mark that covers some hunks. -/
def partialSchemaVersion : Nat := 2

def MarkAuthor.toJson : MarkAuthor → Json
  | .reviewer => .object [("kind", .text "reviewer")]
  | .jev => .object [("kind", .text "jev")]
  | .explore answer => .object [("kind", .text "explore"), ("answer", .text answer)]
  | .exploreRead request => .object [("kind", .text "explore_read"), ("request", .text request)]

/-- The author an object names by its kind. -/
def MarkAuthor.ofJson : Json → Option MarkAuthor
  | .object members =>
    match (Json.last "kind" members).bind Json.asText with
    | some "reviewer" => some .reviewer
    | some "jev" => some .jev
    | some "explore" => ((Json.last "answer" members).bind Json.asText).map .explore
    | some "explore_read" => ((Json.last "request" members).bind Json.asText).map .exploreRead
    | _ => none
  | _ => none

theorem MarkAuthor.ofJson_toJson (author : MarkAuthor) :
    MarkAuthor.ofJson (MarkAuthor.toJson author) = some author := by
  cases author <;> rfl

/-- An author kept as written, so that one a newer reviewer wrote makes its record
unknown rather than unreadable. -/
structure StoredAuthor where
  written : Option Json

namespace StoredAuthor

def new (author : MarkAuthor) : StoredAuthor := ⟨some (MarkAuthor.toJson author)⟩

/-- The author, or none when this reviewer does not know its kind. A record without one
was marked by the reviewer. -/
def decode (author : StoredAuthor) : Option MarkAuthor :=
  match author.written with
  | none => some .reviewer
  | some value => MarkAuthor.ofJson value

def toJson (author : StoredAuthor) : Json := author.written.getD .null

def ofJson : Json → StoredAuthor
  | .null => ⟨none⟩
  | value => ⟨some value⟩

@[simp] theorem decode_new (author : MarkAuthor) : (new author).decode = some author :=
  MarkAuthor.ofJson_toJson author

@[simp] theorem ofJson_toJson_new (author : MarkAuthor) : ofJson (new author).toJson = new author := by
  cases author <;> rfl

/-- A field that is read as the default where it is missing. -/
def read (names : List String) (members : List (String × Json)) : Option StoredAuthor :=
  (Json.field names members).map fun found => (found.map ofJson).getD ⟨none⟩

end StoredAuthor

structure StoredAuthoredLines where
  start : Nat
  stop : Nat
  author : StoredAuthor

/-- How many lines a file may have. -/
def maxLines : Nat := 2 ^ 32

namespace StoredAuthoredLines

def new (entry : AuthoredLines) : StoredAuthoredLines where
  start := entry.extent.start
  stop := entry.extent.stop
  author := .new entry.value

def toJson (entry : StoredAuthoredLines) : Json :=
  .object [("start", .integer entry.start), ("end", .integer entry.stop),
    ("author", entry.author.toJson)]

def ofJson : Json → Option StoredAuthoredLines
  | .object members => do
    let start ← (← Json.required ["start"] members).asBelow maxLines
    let stop ← (← Json.required ["end"] members).asBelow maxLines
    let author ← StoredAuthor.read ["author"] members
    return ⟨start, stop, author⟩
  | _ => none

theorem ofJson_toJson_new {entry : AuthoredLines} (start : entry.extent.start < maxLines)
    (stop : entry.extent.stop < maxLines) : ofJson (new entry).toJson = some (new entry) := by
  have first : (Json.integer (new entry).start).asBelow maxLines = some (new entry).start :=
    if_pos start
  have last : (Json.integer (new entry).stop).asBelow maxLines = some (new entry).stop :=
    if_pos stop
  have author : StoredAuthor.ofJson (new entry).author.toJson = (new entry).author :=
    StoredAuthor.ofJson_toJson_new _
  have read : ofJson (new entry).toJson =
      ((Json.integer (new entry).start).asBelow maxLines).bind fun start =>
        ((Json.integer (new entry).stop).asBelow maxLines).bind fun stop =>
          some ⟨start, stop, StoredAuthor.ofJson (new entry).author.toJson⟩ := rfl
  rw [read, first, last, author]
  rfl

end StoredAuthoredLines

/-- Who accepted the changes of a partial mark. -/
structure StoredAttribution where
  default : StoredAuthor
  removed : List StoredAuthoredLines
  added : List StoredAuthoredLines

namespace StoredAttribution

def new (attribution : Attribution) : StoredAttribution where
  default := .new attribution.default
  removed := attribution.removed.map .new
  added := attribution.added.map .new

/-- A list that is left out when it is empty. -/
def listMember (name : String) (entries : List StoredAuthoredLines) : List (String × Json) :=
  if entries.isEmpty then [] else [(name, .array (entries.map (·.toJson)))]

def toJson (attribution : StoredAttribution) : Json :=
  .object (("default", attribution.default.toJson) ::
    (listMember "removed" attribution.removed ++ listMember "added" attribution.added))

def readList (names : List String) (members : List (String × Json)) :
    Option (List StoredAuthoredLines) :=
  match Json.field names members with
  | some none => some []
  | some (some (.array items)) => items.mapM StoredAuthoredLines.ofJson
  | _ => none

def ofJson : Json → Option StoredAttribution
  | .object members => do
    let default ← StoredAuthor.read ["default"] members
    let removed ← readList ["removed"] members
    let added ← readList ["added"] members
    return ⟨default, removed, added⟩
  | _ => none

/-- Line numbers as the source counts them. -/
def Fits (runs : List AuthoredLines) : Prop :=
  ∀ entry ∈ runs, entry.extent.start < maxLines ∧ entry.extent.stop < maxLines

instance (runs : List AuthoredLines) : Decidable (Fits runs) :=
  inferInstanceAs (Decidable (∀ _ ∈ _, _))

theorem mapM_ofJson_new {runs : List AuthoredLines} (fits : Fits runs) :
    ((runs.map StoredAuthoredLines.new).map (·.toJson)).mapM StoredAuthoredLines.ofJson =
      some (runs.map StoredAuthoredLines.new) := by
  induction runs with
  | nil => rfl
  | cons entry rest ih =>
    obtain ⟨⟨start, stop⟩, fits⟩ := List.forall_mem_cons.mp fits
    simp only [List.map_cons, List.mapM_cons, StoredAuthoredLines.ofJson_toJson_new start stop,
      ih fits]
    rfl

section Members

variable (value : Json) (removed added : List StoredAuthoredLines)

theorem read_default : StoredAuthor.read ["default"] (("default", value) ::
    (listMember "removed" removed ++ listMember "added" added)) = some (.ofJson value) := by
  cases removed <;> cases added <;> rfl

theorem readList_removed : readList ["removed"] (("default", value) ::
    (listMember "removed" removed ++ listMember "added" added)) =
      (removed.map (·.toJson)).mapM StoredAuthoredLines.ofJson := by
  cases removed <;> cases added <;> rfl

theorem readList_added : readList ["added"] (("default", value) ::
    (listMember "removed" removed ++ listMember "added" added)) =
      (added.map (·.toJson)).mapM StoredAuthoredLines.ofJson := by
  cases removed <;> cases added <;> rfl

end Members

theorem ofJson_toJson_new {attribution : Attribution} (removed : Fits attribution.removed)
    (added : Fits attribution.added) :
    ofJson (new attribution).toJson = some (new attribution) := by
  simp only [toJson, ofJson, read_default, readList_removed, readList_added]
  simp only [new, mapM_ofJson_new removed, mapM_ofJson_new added, StoredAuthor.ofJson_toJson_new]
  rfl

/-- Without the entries that begin before an earlier one ends. -/
def separate : Nat → List AuthoredLines → List AuthoredLines
  | _, [] => []
  | stop, entry :: rest =>
    if stop ≤ entry.extent.start then entry :: separate entry.extent.stop rest
    else separate stop rest

/-- The entries with lines. -/
def filled (stored : List StoredAuthoredLines) : List AuthoredLines :=
  (stored.filter fun entry => entry.start < entry.stop).map fun entry =>
    ⟨⟨entry.start, entry.stop⟩, entry.author.decode.getD .reviewer⟩

def entries (stored : List StoredAuthoredLines) : List AuthoredLines :=
  separate 0 ((filled stored).insertionSort fun a b => a.extent.start ≤ b.extent.start)

/-- The attribution, its entries sorted and without overlaps so every line has one
author. -/
def toAttribution (stored : StoredAttribution) : Attribution where
  default := stored.default.decode.getD .reviewer
  removed := entries stored.removed
  added := entries stored.added

end StoredAttribution

structure StoredPartialReview where
  base : String
  reviewed : String
  attribution : StoredAttribution

namespace StoredPartialReview

def new (review : PartialReview) : StoredPartialReview :=
  ⟨Base64.encode review.base, Base64.encode review.reviewed.text,
    .new review.reviewed.attribution⟩

def toJson (stored : StoredPartialReview) : Json :=
  .object [("base", .text stored.base), ("reviewed", .text stored.reviewed),
    ("attribution", stored.attribution.toJson)]

def ofJson : Json → Option StoredPartialReview
  | .object members => do
    let base ← (← Json.required ["base"] members).asText
    let reviewed ← (← Json.required ["reviewed"] members).asText
    let attribution ← match ← Json.field ["attribution"] members with
      | none => some ⟨⟨none⟩, [], []⟩
      | some value => StoredAttribution.ofJson value
    return ⟨base, reviewed, attribution⟩
  | _ => none

end StoredPartialReview

inductive PathEncoding where
  | utf8
  | base64
  deriving DecidableEq, Repr

namespace PathEncoding

def toJson : PathEncoding → Json
  | .utf8 => .text "utf8"
  | .base64 => .text "base64"

def ofJson : Json → Option PathEncoding
  | .text "utf8" => some .utf8
  | .text "base64" => some .base64
  | _ => none

def encode (path : RepoPath) : PathEncoding × String :=
  match String.fromUTF8? ⟨path.toArray⟩ with
  | some path => (.utf8, path)
  | none => (.base64, Base64.encode path)

end PathEncoding

/-- The path a record's text stands for. -/
def PathEncoding.decode (encoding : PathEncoding) (path : String) : Option RepoPath :=
  match encoding with
  | .utf8 => some path.toUTF8.data.toList
  | .base64 => Base64.decode path

theorem PathEncoding.decode_encode (path : RepoPath) :
    (encode path).1.decode (encode path).2 = some path := by
  unfold encode
  split
  · next text read =>
    unfold String.fromUTF8? at read
    split_ifs at read with valid
    obtain rfl := Option.some.inj read
    rfl
  · exact Base64.decode_encode path

theorem PathEncoding.ofJson_toJson (encoding : PathEncoding) :
    ofJson encoding.toJson = some encoding := by
  cases encoding <;> rfl

structure StoredRecord where
  schemaVersion : Nat
  reviewUnit : ReviewUnit
  pathEncoding : PathEncoding
  path : String
  baselineCommitId : String
  reviewedAt : String
  author : StoredAuthor
  partialReview : Option StoredPartialReview

namespace StoredRecord

/-- The record as `write_record` stores it. -/
def new (unit : ReviewUnit) (record : ReviewRecord) : StoredRecord where
  schemaVersion := if record.partialReview.isSome then partialSchemaVersion else fileSchemaVersion
  reviewUnit := unit
  pathEncoding := (PathEncoding.encode record.path).1
  path := (PathEncoding.encode record.path).2
  baselineCommitId := record.baselineCommitId
  reviewedAt := record.reviewedAt
  author := .new record.author
  partialReview := record.partialReview.map .new

def toJson (stored : StoredRecord) : Json :=
  .object ([("schema_version", .integer stored.schemaVersion),
    ("review_unit", .text stored.reviewUnit), ("path_encoding", stored.pathEncoding.toJson),
    ("path", .text stored.path), ("baseline_commit_id", .text stored.baselineCommitId),
    ("reviewed_at", .text stored.reviewedAt), ("author", stored.author.toJson)] ++
    (stored.partialReview.map fun review => ("partial", review.toJson)).toList)

def readPartial (members : List (String × Json)) : Option (Option StoredPartialReview) :=
  match Json.field ["partial"] members with
  | some none => some none
  | some (some .null) => some none
  | some (some value) => (StoredPartialReview.ofJson value).map some
  | none => none

def ofJson : Json → Option StoredRecord
  | .object members => do
    let schemaVersion ← (← Json.required ["schema_version"] members).asBelow 256
    let reviewUnit ← (← Json.required ["review_unit", "change_id"] members).asText
    let pathEncoding ← PathEncoding.ofJson (← Json.required ["path_encoding"] members)
    let path ← (← Json.required ["path"] members).asText
    let baselineCommitId ← (← Json.required ["baseline_commit_id"] members).asText
    let reviewedAt ← (← Json.required ["reviewed_at"] members).asText
    let author ← StoredAuthor.read ["author"] members
    let partialReview ← readPartial members
    return ⟨schemaVersion, reviewUnit, pathEncoding, path, baselineCommitId, reviewedAt, author,
      partialReview⟩
  | _ => none

variable (stored : StoredRecord)

/-- Every author the record names. -/
def authors : List StoredAuthor :=
  stored.author :: (stored.partialReview.toList.flatMap fun review =>
    review.attribution.default ::
      (review.attribution.removed ++ review.attribution.added).map (·.author))

def hasKnownAuthors : Bool := stored.authors.all fun author => author.decode.isSome

def hasKnownSchema : Bool :=
  (if stored.schemaVersion = fileSchemaVersion then stored.partialReview.isNone
    else decide (stored.schemaVersion = partialSchemaVersion)) && stored.hasKnownAuthors

/-- The stored partial review, if the mark covers only some hunks; none for a record that
lost the versions it needs. -/
def decodePartial : Option (Option PartialReview) :=
  if stored.schemaVersion ≠ partialSchemaVersion then some none
  else do
    let review ← stored.partialReview
    let base ← Base64.decode review.base
    let text ← Base64.decode review.reviewed
    return some ⟨base, ⟨text, review.attribution.toAttribution⟩⟩

def decodePath : Option RepoPath := stored.pathEncoding.decode stored.path

/-- What loading the record of a path gives. -/
def loaded (unit : ReviewUnit) (path : RepoPath) : LoadResult :=
  if stored.hasKnownSchema then
    match stored.decodePath, stored.decodePartial with
    | some decodedPath, some partialReview =>
      if stored.reviewUnit = unit ∧ decodedPath = path ∧
          validateCommit stored.baselineCommitId = .ok () then
        .reviewed ⟨decodedPath, stored.baselineCommitId, stored.reviewedAt,
          stored.author.decode.getD .reviewer, partialReview⟩
      else .unreviewed
    | _, _ => .unreviewed
  else .unknownSchema

end StoredRecord

namespace StoredAttribution

theorem separate_apart (stop : Nat) {runs : List AuthoredLines}
    (nonempty : ∀ run ∈ runs, run.extent.start < run.extent.stop) :
    (∀ run ∈ separate stop runs, run ∈ runs ∧ stop ≤ run.extent.start) ∧
      (separate stop runs).Pairwise fun a b => a.extent.stop ≤ b.extent.start := by
  induction runs generalizing stop with
  | nil => exact ⟨nofun, List.Pairwise.nil⟩
  | cons entry rest ih =>
    obtain ⟨filled, nonempty⟩ := List.forall_mem_cons.mp nonempty
    rw [separate]
    split_ifs with apart
    · obtain ⟨from_, sorted⟩ := ih _ nonempty
      refine ⟨?_, List.pairwise_cons.mpr ⟨fun run mem => (from_ run mem).2, sorted⟩⟩
      rintro run (_ | ⟨_, mem⟩)
      · exact ⟨List.mem_cons_self, apart⟩
      · exact ⟨List.mem_cons_of_mem _ (from_ run mem).1,
          apart.trans (filled.le.trans (from_ run mem).2)⟩
    · obtain ⟨from_, sorted⟩ := ih _ nonempty
      exact ⟨fun run mem => ⟨List.mem_cons_of_mem _ (from_ run mem).1, (from_ run mem).2⟩, sorted⟩

theorem separate_of_sorted {stop : Nat} {runs : List AuthoredLines}
    (sorted : runs.Pairwise fun a b => a.extent.stop ≤ b.extent.start)
    (after : ∀ run ∈ runs, stop ≤ run.extent.start) : separate stop runs = runs := by
  induction runs generalizing stop with
  | nil => rfl
  | cons entry rest ih =>
    obtain ⟨first, sorted⟩ := List.pairwise_cons.mp sorted
    rw [separate, if_pos (after entry List.mem_cons_self), ih sorted first]

/-- Whatever order and overlap stored runs have, the loaded ones are sorted, apart and
not empty. -/
theorem entries_apart (stored : List StoredAuthoredLines) :
    (∀ run ∈ entries stored, run.extent.start < run.extent.stop) ∧
      (entries stored).Pairwise fun a b => a.extent.stop ≤ b.extent.start := by
  have nonempty : ∀ run ∈ filled stored, run.extent.start < run.extent.stop := by
    intro run mem
    obtain ⟨entry, kept, rfl⟩ := List.mem_map.mp mem
    exact of_decide_eq_true (List.mem_filter.mp kept).2
  have kept : ∀ run ∈ (filled stored).insertionSort fun a b => a.extent.start ≤ b.extent.start,
      run.extent.start < run.extent.stop := fun run mem =>
    nonempty run ((List.mem_insertionSort _).mp mem)
  exact ⟨fun run mem => kept run ((separate_apart 0 kept).1 run mem).1, (separate_apart 0 kept).2⟩

/-- Canonical runs load as they were stored. -/
theorem entries_new {usual : MarkAuthor} {runs : List AuthoredLines}
    (canonical : Run.Canonical usual runs) : entries (runs.map .new) = runs := by
  have read : filled (runs.map .new) = runs := by
    rw [filled, List.filter_eq_self.mpr]
    · rw [List.map_map]
      refine List.map_id'' (fun run => ?_) runs
      simp [StoredAuthoredLines.new]
    · intro entry mem
      obtain ⟨run, known, rfl⟩ := List.mem_map.mp mem
      exact decide_eq_true (canonical.nonempty run known)
  have apart : runs.Pairwise fun a b => a.extent.stop ≤ b.extent.start :=
    canonical.sorted.imp And.left
  have sorted : runs.Pairwise fun a b => a.extent.start ≤ b.extent.start := by
    refine List.Pairwise.imp_of_mem (fun {a b} mem _ before => ?_) apart
    exact (canonical.nonempty a mem).le.trans before
  rw [entries, read, sorted.insertionSort_eq, separate_of_sorted apart fun _ _ => Nat.zero_le _]

theorem toAttribution_new {attribution : Attribution} (canonical : attribution.Canonical) :
    (new attribution).toAttribution = attribution := by
  simp [new, toAttribution, entries_new canonical.removed, entries_new canonical.added]

end StoredAttribution

namespace StoredPartialReview

theorem ofJson_toJson_new {review : PartialReview}
    (removed : StoredAttribution.Fits review.reviewed.attribution.removed)
    (added : StoredAttribution.Fits review.reviewed.attribution.added) :
    ofJson (new review).toJson = some (new review) := by
  have attribution := StoredAttribution.ofJson_toJson_new removed added
  have read : ofJson (new review).toJson =
      (StoredAttribution.ofJson (new review).attribution.toJson).bind fun attribution =>
        some ⟨(new review).base, (new review).reviewed, attribution⟩ := rfl
  rw [read]
  simp only [new, attribution, Option.bind_some]

end StoredPartialReview

namespace StoredRecord

variable {unit : ReviewUnit} {record : ReviewRecord}

/-- The lines of the record are numbered as the source counts them. -/
def Fits (record : ReviewRecord) : Prop :=
  ∀ review, record.partialReview = some review →
    StoredAttribution.Fits review.reviewed.attribution.removed ∧
      StoredAttribution.Fits review.reviewed.attribution.added

/-- A record the store writes: the default author of its lines marks a partial one. -/
structure Stores (record : ReviewRecord) : Prop where
  commit : validateCommit record.baselineCommitId = .ok ()
  fits : Fits record
  canonical : ∀ review, record.partialReview = some review → review.reviewed.attribution.Canonical

theorem ofJson_toJson_new (fits : Fits record) : ofJson (new unit record).toJson =
    some (new unit record) := by
  obtain ⟨path, commit, reviewedAt, author, partialReview⟩ := record
  have known := StoredAuthor.ofJson_toJson_new author
  have encoding := PathEncoding.ofJson_toJson (PathEncoding.encode path).1
  cases partialReview with
  | none =>
    have read : ofJson (new unit ⟨path, commit, reviewedAt, author, none⟩).toJson =
        (PathEncoding.ofJson (PathEncoding.encode path).1.toJson).bind fun encoding =>
          some ⟨1, unit, encoding, (PathEncoding.encode path).2, commit, reviewedAt,
            .ofJson (StoredAuthor.new author).toJson, none⟩ := rfl
    rw [read, encoding, known]
    rfl
  | some review =>
    obtain ⟨removed, added⟩ := fits review rfl
    have stored := StoredPartialReview.ofJson_toJson_new removed added
    have read : ofJson (new unit ⟨path, commit, reviewedAt, author, some review⟩).toJson =
        (PathEncoding.ofJson (PathEncoding.encode path).1.toJson).bind fun encoding =>
          ((StoredPartialReview.ofJson (StoredPartialReview.new review).toJson).map some).bind
            fun review => some ⟨2, unit, encoding, (PathEncoding.encode path).2, commit,
              reviewedAt, .ofJson (StoredAuthor.new author).toJson, review⟩ := rfl
    rw [read, encoding, known, stored]
    rfl

theorem decode_authors_new : ∀ author ∈ (new unit record).authors, author.decode.isSome = true := by
  intro author mem
  have known : ∀ run : AuthoredLines, (StoredAuthoredLines.new run).author.decode.isSome = true :=
    fun run => by simp [StoredAuthoredLines.new]
  rcases List.mem_cons.mp mem with rfl | mem
  · simp [new]
  · obtain ⟨review, found, mem⟩ := List.mem_flatMap.mp mem
    obtain ⟨written, _, rfl⟩ := Option.map_eq_some_iff.mp (Option.mem_toList.mp found)
    rcases List.mem_cons.mp mem with rfl | mem
    · simp [StoredPartialReview.new, StoredAttribution.new]
    · obtain ⟨entry, listed, rfl⟩ := List.mem_map.mp mem
      rcases List.mem_append.mp listed with removed | added
      · obtain ⟨run, _, rfl⟩ := List.mem_map.mp removed
        exact known run
      · obtain ⟨run, _, rfl⟩ := List.mem_map.mp added
        exact known run

theorem hasKnownSchema_new : (new unit record).hasKnownSchema = true := by
  have known : (new unit record).hasKnownAuthors = true := List.all_eq_true.mpr decode_authors_new
  rw [hasKnownSchema, known, Bool.and_true]
  cases written : record.partialReview <;>
    simp [new, written, fileSchemaVersion, partialSchemaVersion]

theorem decodePartial_new
    (canonical : ∀ review, record.partialReview = some review →
      review.reviewed.attribution.Canonical) :
    (new unit record).decodePartial = some record.partialReview := by
  obtain ⟨path, commit, reviewedAt, author, partialReview⟩ := record
  cases partialReview with
  | none => rfl
  | some review =>
    simp [decodePartial, new, partialSchemaVersion, StoredPartialReview.new,
      Base64.decode_encode, StoredAttribution.toAttribution_new (canonical review rfl)]

/-- A stored record loads as it was written. -/
theorem loaded_new (stores : Stores record) :
    (new unit record).loaded unit record.path = .reviewed record := by
  have path : (new unit record).decodePath = some record.path :=
    PathEncoding.decode_encode record.path
  have review : (new unit record).decodePartial = some record.partialReview :=
    decodePartial_new stores.canonical
  have author : (new unit record).author.decode = some record.author :=
    StoredAuthor.decode_new record.author
  have valid : (new unit record).reviewUnit = unit ∧ record.path = record.path ∧
      validateCommit (new unit record).baselineCommitId = .ok () := ⟨rfl, rfl, stores.commit⟩
  rw [loaded, if_pos hasKnownSchema_new, path, review]
  dsimp only
  rw [if_pos valid, author]
  rfl

/-- A record of an unknown schema or author is never read as a mark. -/
theorem loaded_unknown {stored : StoredRecord} {path : RepoPath}
    (unknown : stored.schemaVersion ∉ [fileSchemaVersion, partialSchemaVersion] ∨
      ∃ author ∈ stored.authors, author.decode = none) :
    stored.loaded unit path = .unknownSchema := by
  have schema : stored.hasKnownSchema = false := by
    rcases unknown with version | ⟨author, mem, decoded⟩
    · obtain ⟨file, lines⟩ := not_or.mp (by simpa using version)
      simp [hasKnownSchema, file, lines]
    · have authors : stored.hasKnownAuthors = false :=
        List.all_eq_false.mpr ⟨author, mem, by simp [decoded]⟩
      simp [hasKnownSchema, authors]
  simp [loaded, schema]

end StoredRecord

end ProgressiveReviewer.Marks
