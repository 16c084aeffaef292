import ProgressiveReviewer.DiffSearch.Search

/-! What recomputing the matches does, and where steps through them lead. -/

namespace ProgressiveReviewer.DiffSearch

open Library Hunks

variable (engine : Engine) (rowsAt : Address → List Bytes)

/-- What an active search shows for the documents of its last refresh. -/
structure ActiveSearch.Shows (documents : List SearchedDocument) (search : ActiveSearch) : Prop where
  /-- While a request is awaited it is for the query in these documents, and nothing shows. -/
  awaits : ∀ request, search.pending = some request → search.matched = none ∧ search.matches = [] ∧
    request.query = search.query ∧ search.query ≠ [] ∧ request.documents = texts documents
  /-- Matches are exactly those of the query in these documents. -/
  shows : ∀ request, search.pending = none → search.matched = some request →
    request.query = search.query ∧ search.query ≠ [] ∧ request.documents = texts documents ∧
      ∃ shown, texts shown = texts documents ∧
        search.matches = locate shown (request.search engine rowsAt).matches
  hides : search.pending = none → search.matched = none → search.matches = []

variable {engine rowsAt} {search : ActiveSearch} {documents old : List SearchedDocument} {next : Nat}

namespace ActiveSearch

theorem Shows.congr {other : ActiveSearch} (holds : search.Shows engine rowsAt documents)
    (query : other.query = search.query) (pending : other.pending = search.pending)
    (matched : other.matched = search.matched) (shown : other.matches = search.matches) :
    other.Shows engine rowsAt documents := by
  refine ⟨?_, ?_, ?_⟩ <;> rw [pending]
  · rw [query, matched, shown]
    exact holds.awaits
  · rw [query, matched, shown]
    exact holds.shows
  · rw [matched, shown]
    exact holds.hides

theorem shows_idle (pending : search.pending = none) (matched : search.matched = none)
    (shown : search.matches = []) : search.Shows engine rowsAt documents :=
  ⟨fun _ other => (nomatch pending.symm.trans other),
    fun _ _ other => (nomatch matched.symm.trans other), fun _ _ => shown⟩

/-- What recomputing the matches does to a search that showed a query, whatever its query is now. -/
structure Refreshes (engine : Engine) (rowsAt : Address → List Bytes) (search : ActiveSearch)
    (documents : List SearchedDocument) (next : Nat) (after : ActiveSearch × Option Intent × Nat) :
    Prop where
  shows : after.1.Shows engine rowsAt documents
  query : after.1.query = search.query
  le : next ≤ after.2.2
  fresh : ∀ request, after.2.1 = some (.request request) → request.id = next ∧ next < after.2.2
  handed : ∀ request, after.1.pending = some request → after.2.1 = some (.request request) ∨
    after.2.1 = none ∧ search.pending = some request

/-- Matches that are for the query and the documents already stay. -/
theorem refreshes_kept {query : List Char}
    (before : ({ search with query := query } : ActiveSearch).Shows engine rowsAt old)
    {request : Request} (held : search.pending.or search.matched = some request)
    (same : request.query = search.query ∧
      request.documents = if search.query = [] then [] else texts documents) :
    Refreshes engine rowsAt search documents next (search, none, next) := by
  refine ⟨⟨?_, ?_, ?_⟩, rfl, Nat.le_refl _, fun _ other => (nomatch other),
    fun _ own => Or.inr ⟨rfl, own⟩⟩
  · intro own pending
    rw [pending, Option.some_or] at held
    obtain rfl := Option.some.inj held
    obtain ⟨matched, hidden, asked, proper, -⟩ := before.awaits own pending
    have proper : search.query ≠ [] := same.1 ▸ asked.symm ▸ proper
    rw [if_neg proper] at same
    exact ⟨matched, hidden, same.1, proper, same.2⟩
  · intro own pending matched
    rw [pending, Option.none_or, matched] at held
    obtain rfl := Option.some.inj held
    obtain ⟨asked, proper, searched, shown, paths, located⟩ := before.shows own pending matched
    have proper : search.query ≠ [] := same.1 ▸ asked.symm ▸ proper
    rw [if_neg proper] at same
    exact ⟨same.1, proper, same.2, shown, paths.trans (searched.symm.trans same.2), located⟩
  · intro pending matched
    rw [pending, matched] at held
    cases held

theorem refreshes_refresh (search : ActiveSearch) (query : List Char)
    (documents : List SearchedDocument) (next : Nat)
    (before : ({ search with query := query } : ActiveSearch).Shows engine rowsAt old) :
    Refreshes engine rowsAt search documents next (search.refresh engine rowsAt documents next) := by
  have cancels (own : Request) :
      (if search.pending.isSome then some Intent.cancelRequest else none) ≠ some (.request own) := by
    split_ifs <;> exact fun same => nomatch same
  rw [refresh]
  dsimp only
  by_cases held : (search.pending.or search.matched).any (fun request => request.query = search.query ∧
      request.documents = if search.query = [] then [] else texts documents) = true
  · rw [if_pos held]
    obtain ⟨request, own, same⟩ := (Option.any_eq_true ..).mp held
    exact refreshes_kept before own (of_decide_eq_true same)
  · rw [if_neg held]
    by_cases empty : search.query = []
    · rw [if_pos empty]
      exact ⟨shows_idle rfl rfl rfl, rfl, Nat.le_refl _, fun own same => absurd same (cancels own),
        fun _ other => (nomatch other)⟩
    · simp only [if_neg empty]
      by_cases large : (⟨next, search.query, texts documents⟩ : Request).isLarge rowsAt = true
      · rw [if_pos large]
        refine ⟨⟨?_, fun _ none => (nomatch none), fun none => (nomatch none)⟩, rfl,
          Nat.le_succ _, ?_, fun own same => Or.inl (congrArg (some ∘ Intent.request) ?_)⟩
        · rintro own same
          obtain rfl := Option.some.inj same
          exact ⟨rfl, rfl, rfl, empty, rfl⟩
        · rintro own same
          cases same
          exact ⟨rfl, Nat.lt_succ_self _⟩
        · exact Option.some.inj same
      · rw [if_neg large]
        refine ⟨⟨fun _ none => (nomatch none), ?_, fun _ none => (nomatch none)⟩, rfl,
          Nat.le_succ _, fun own same => absurd same (cancels own), fun _ none => (nomatch none)⟩
        rintro own - same
        obtain rfl := Option.some.inj same
        exact ⟨rfl, empty, rfl, documents, rfl, rfl⟩

/-- Matches that are accepted are those of the request that was awaited. -/
theorem shows_accept (before : search.Shows engine rowsAt old) {request : Request}
    (awaited : search.pending = some request) (current : request.documents = texts documents) :
    (search.accept (request.results engine rowsAt) documents).Shows engine rowsAt old := by
  obtain ⟨-, -, asked, proper, searched⟩ := before.awaits request awaited
  refine ⟨fun _ none => (nomatch none), ?_, fun _ none => ?_⟩
  · rintro own - same
    obtain rfl := Option.some.inj (awaited.symm.trans same)
    refine ⟨asked, proper, searched, documents, current.symm.trans searched, ?_⟩
    have found := engineSearch_eq engine request.query (request.documents.map rowsAt)
    rw [List.map_map] at found
    exact congrArg (locate documents) found
  · exact nomatch awaited.symm.trans none

end ActiveSearch

/-! Stepping through the matches. -/

theorem Location.lt_of_before {documents : List SearchedDocument} {first second : Match}
    {here there : SearchedDocument} (before : first.Before second)
    (one : documents[first.documentIndex]? = some here)
    (other : documents[second.documentIndex]? = some there) :
    (⟨first.documentIndex, here.path, first.position⟩ : Location) <
      ⟨second.documentIndex, there.path, second.position⟩ := by
  change Location.key _ < Location.key _
  obtain less | ⟨same, rest⟩ := before
  · exact Prod.Lex.toLex_lt_toLex.mpr (Or.inl less)
  · rw [← same, one] at other
    obtain rfl := Option.some.inj other
    refine Prod.Lex.toLex_lt_toLex.mpr (Or.inr ⟨same, Prod.Lex.toLex_lt_toLex.mpr (Or.inr ⟨rfl, ?_⟩)⟩)
    exact Prod.Lex.toLex_lt_toLex.mpr rest

theorem locate_ascending (documents : List SearchedDocument) {found : List Match}
    (ascending : found.Pairwise Match.Before) : (locate documents found).Pairwise (· < ·) := by
  refine List.pairwise_filterMap.mpr (ascending.imp fun {first second} before => ?_)
  intro here one there other
  obtain ⟨document, held, rfl⟩ := Option.map_eq_some_iff.mp one
  obtain ⟨document, also, rfl⟩ := Option.map_eq_some_iff.mp other
  exact Location.lt_of_before before held also

theorem ActiveSearch.Shows.ascending (shows : search.Shows engine rowsAt documents) :
    search.matches.Pairwise (· < ·) := by
  cases pending : search.pending with
  | some request =>
    rw [(shows.awaits request pending).2.1]
    exact List.Pairwise.nil
  | none =>
    cases matched : search.matched with
    | none =>
      rw [shows.hides pending matched]
      exact List.Pairwise.nil
    | some request =>
      obtain ⟨-, -, -, shown, -, located⟩ := shows.shows request pending matched
      rw [located]
      exact locate_ascending shown (searchUnless_ascending engine _ _)

def Intent.destination : Intent → Option Location
  | .jump location _ => some location
  | _ => none

namespace ActiveSearch

variable (search)

/-- Where a step leads. -/
def reach (direction : Direction) (current : Location) : Option Location :=
  (search.step direction current).bind Intent.destination

/-- Where a number of steps forward lead. -/
def walk (start : Location) : Nat → Option Location
  | 0 => some start
  | steps + 1 => (walk start steps).bind (search.reach .forward)

theorem reach_forward : search.reach .forward = firstAfter search.matches := by
  funext current
  rw [reach, step]
  cases firstAfter search.matches current <;> rfl

theorem reach_backward : search.reach .backward = firstBefore search.matches := by
  funext current
  rw [reach, step]
  cases firstBefore search.matches current <;> rfl

theorem walk_eq (start : Location) (steps : Nat) :
    search.walk start steps = around search.matches start steps := by
  induction steps with
  | zero => rfl
  | succ steps ih => rw [walk, around, ih, reach_forward]

variable {search}

/-- As many steps forward as there are matches visit each once and come back, and a step backward
undoes a step forward. -/
theorem Shows.goes_round (shows : search.Shows engine rowsAt documents) {start : Location}
    (mem : start ∈ search.matches) :
    (∀ item ∈ search.matches,
      ∃! steps, steps < search.matches.length ∧ search.walk start (steps + 1) = some item) ∧
    search.walk start search.matches.length = some start ∧
    (search.reach .forward start).bind (search.reach .backward) = some start := by
  obtain ⟨index, held, rfl⟩ := List.getElem_of_mem mem
  simp only [walk_eq, reach_forward, reach_backward]
  exact ⟨fun item other => around_visits shows.ascending held other,
    around_length shows.ascending held, firstBefore_firstAfter shows.ascending held⟩

end ActiveSearch

/-! What any search shows. -/

/-- The matches of a query in documents. -/
def found (engine : Engine) (rowsAt : Address → List Bytes) (query : List Char)
    (documents : List SearchedDocument) : List Location :=
  locate documents (searchUnless engine query ((texts documents).map (documentAt rowsAt)))

theorem found_nil (documents : List SearchedDocument) : found engine rowsAt [] documents = [] := by
  have silent (text : Bytes) : byteRanges engine [] text = [] := rfl
  simp [found, searchUnless, silent, locate]

/-- A search that waits for nothing shows the matches once it is refreshed. -/
theorem ActiveSearch.refresh_idle (pending : search.pending = none) (matched : search.matched = none)
    (documents : List SearchedDocument) (next : Nat) :
    (search.refresh engine rowsAt documents next).1.pending.isSome ∨
      (search.refresh engine rowsAt documents next).1.matches =
        found engine rowsAt search.query documents := by
  rw [refresh, pending, matched]
  by_cases empty : search.query = []
  · right
    simp [empty, found_nil]
  · by_cases large : (⟨next, search.query, texts documents⟩ : Request).isLarge rowsAt = true
    · left
      simp [empty, large]
    · right
      simp only [Option.or_none, Option.any_none, Bool.false_eq_true, if_false, empty, large]
      rfl

/-- What an active search shows: the matches of its query in documents with the texts of the last
refresh, or none while their search is awaited or left to the next refresh. -/
def ActiveSearch.ShowsOwn (engine : Engine) (rowsAt : Address → List Bytes)
    (documents : List SearchedDocument) (search : ActiveSearch) : Prop :=
  (∃ shown, texts shown = texts documents ∧
    search.matches = found engine rowsAt search.query shown) ∨
  search.matches = [] ∧ (search.pending.isSome ∨ ∀ documents next,
    (search.refresh engine rowsAt documents next).1.pending.isSome ∨
      (search.refresh engine rowsAt documents next).1.matches =
        found engine rowsAt search.query documents)

theorem ActiveSearch.Shows.own (shows : search.Shows engine rowsAt documents) :
    search.ShowsOwn engine rowsAt documents := by
  cases pending : search.pending with
  | some request =>
    exact Or.inr ⟨(shows.awaits request pending).2.1, Or.inl (pending ▸ rfl)⟩
  | none =>
    cases matched : search.matched with
    | none =>
      exact Or.inr ⟨shows.hides pending matched, Or.inr (search.refresh_idle pending matched)⟩
    | some request =>
      obtain ⟨query, -, searched, shown, same, located⟩ := shows.shows request pending matched
      refine Or.inl ⟨shown, same, ?_⟩
      rw [located, found, same, ← searched, ← query]
      rfl

end ProgressiveReviewer.DiffSearch
