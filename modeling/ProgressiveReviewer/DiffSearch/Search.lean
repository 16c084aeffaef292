import ProgressiveReviewer.DiffSearch.Documents
import ProgressiveReviewer.Library.Cycle
import Mathlib.Data.Prod.Lex
import Mathlib.Data.String.Basic

/-! The diff viewer's search: the query, its matches across every loaded document, and the
background request that computes them (`diff-search/src/lib.rs`). -/

namespace ProgressiveReviewer.DiffSearch

open Library Hunks

/-- The place in memory of a presented text, which never changes while it is shared. -/
abbrev Address := Nat

/-- A place in the searched documents, ordered by document, then position. -/
structure Location where
  documentIndex : Nat
  path : String
  position : Position
  deriving DecidableEq, Repr

namespace Location

def key (location : Location) : ℕ ×ₗ String ×ₗ ℕ ×ₗ ℕ :=
  toLex (location.documentIndex, toLex (location.path,
    toLex (location.position.row, location.position.column)))

theorem key_injective : Function.Injective key := by
  rintro ⟨documentIndex, path, row, column⟩ ⟨_, _, _, _⟩ same
  cases same
  rfl

instance : LinearOrder Location := LinearOrder.lift' key key_injective

end Location

/-- One document the viewer shows, as search sees it. -/
structure SearchedDocument where
  path : String
  text : Address
  deriving DecidableEq, Repr

/-- Immutable inputs for one query; the identity tells superseded results apart. -/
structure Request where
  id : Nat
  query : List Char
  documents : List Address
  deriving DecidableEq, Repr

/-- Completed matches for one request. -/
structure Results where
  id : Nat
  «matches» : List Match
  deriving DecidableEq, Repr

/-- Which way to move from the cursor to the next match. -/
inductive Direction where
  | forward
  | backward
  deriving DecidableEq, Repr

/-- One change the reviewer makes while typing the query. -/
inductive Edit where
  | type (character : Char)
  | backspace
  /-- Pasted text joins the query on one line. -/
  | paste (text : List Char)
  /-- Keep the query and its matches, and stop editing. -/
  | accept
  /-- Drop the search and go back to where it started. -/
  | cancel
  deriving DecidableEq, Repr

/-- What the viewer must do after a search input, in order. -/
inductive Intent where
  | jump («to» : Location) (remember : Bool)
  /-- Hand this request to the background worker. -/
  | request (request : Request)
  /-- Stop the background request this search was waiting for. -/
  | cancelRequest
  | status (files : Bool)
  deriving DecidableEq, Repr

structure ActiveSearch where
  query : List Char
  origin : Location
  editing : Bool
  waitingForRepository : Bool
  «matches» : List Location
  pending : Option Request
  matched : Option Request
  navigateOnResults : Bool
  deriving DecidableEq, Repr

/-- The diff viewer's search, inactive until the reviewer begins one. -/
structure Search where
  active : Option ActiveSearch
  deriving DecidableEq, Repr

variable (engine : Engine) (rowsAt : Address → List Bytes)

/-- The document at an address. -/
def documentAt (address : Address) : Document := .fromRows (rowsAt address)

def texts (documents : List SearchedDocument) : List Address := documents.map (·.text)

namespace Request

def isLarge (request : Request) : Bool :=
  (request.documents.map fun address => (documentAt rowsAt address).text.length).sum > 64 * 1024

def search (request : Request) : Results :=
  ⟨request.id, searchUnless engine request.query (request.documents.map (documentAt rowsAt))⟩

/-- What the worker delivers for a request that nothing cancels. -/
def results (request : Request) : Results :=
  ⟨request.id, engineSearch engine request.query (request.documents.map (documentAt rowsAt))⟩

end Request

/-- The locations of matches in documents. -/
def locate (documents : List SearchedDocument) («matches» : List Match) : List Location :=
  «matches».filterMap fun found => documents[found.documentIndex]?.map fun document =>
    ⟨found.documentIndex, document.path, found.position⟩

namespace ActiveSearch

variable (search : ActiveSearch)

/-- Recompute the matches; `next` is the identity of the next request of the process. -/
def refresh (documents : List SearchedDocument) (next : Nat) : ActiveSearch × Option Intent × Nat :=
  let texts := if search.query = [] then [] else texts documents
  if (search.pending.or search.matched).any fun request =>
      request.query = search.query ∧ request.documents = texts then (search, none, next)
  else
    let cancel := if search.pending.isSome then some .cancelRequest else none
    let cleared := { search with pending := none, matched := none, «matches» := [] }
    if search.query = [] then (cleared, cancel, next)
    else
      let request : Request := ⟨next, search.query, texts⟩
      if request.isLarge rowsAt then
        ({ cleared with
            navigateOnResults := search.editing || search.waitingForRepository
            pending := some request }, some (.request request), next + 1)
      else
        ({ cleared with
            «matches» := locate documents (request.search engine rowsAt).matches
            matched := some request }, cancel, next + 1)

def accept (results : Results) (documents : List SearchedDocument) : ActiveSearch :=
  { search with
    matched := search.pending
    pending := none
    «matches» := locate documents results.matches }

/-- Follow the query from where the search started. -/
def jumpFromOrigin : Option Intent :=
  (if search.query = [] then some search.origin else firstAfter search.matches search.origin).map
    (.jump · false)

def step (direction : Direction) (current : Location) : Option Intent :=
  (match direction with
    | .forward => firstAfter search.matches current
    | .backward => firstBefore search.matches current).map (.jump · true)

end ActiveSearch

/-- Whether awaited results were computed from the current documents. -/
inductive Freshness where
  | current
  | stale
  deriving DecidableEq, Repr

/-- The search after an input, what the viewer must do, and the next identity. -/
structure Done where
  search : Search
  intents : List Intent
  next : Nat
  deriving DecidableEq, Repr

namespace Search

variable (search : Search)

def cancelPending : List Intent :=
  match search.active.bind (·.pending) with
  | some _ => [.cancelRequest]
  | none => []

/-- Search for a query from `origin`, replacing any previous search. -/
def begin (query : List Char) (editing : Bool) (origin : Location)
    (documents : List SearchedDocument) (next : Nat) : Done :=
  let started : ActiveSearch := ⟨query, origin, editing, false, [], none, none, false⟩
  let (refreshed, intent, next) := started.refresh engine rowsAt documents next
  let active := { refreshed with navigateOnResults := true }
  let jump := if editing then none else active.step .forward active.origin
  ⟨⟨some active⟩, search.cancelPending ++ intent.toList ++ jump.toList ++ [.status true], next⟩

def cancel (next : Nat) : Done :=
  let jump := search.active.map fun active => Intent.jump active.origin false
  ⟨⟨none⟩, search.cancelPending ++ jump.toList ++ [.status true], next⟩

/-- Recompute the matches of a query that changed. -/
def requery (active : ActiveSearch) (documents : List SearchedDocument) (next : Nat) : Done :=
  let (refreshed, intent, next) := active.refresh engine rowsAt documents next
  ⟨⟨some refreshed⟩, intent.toList ++ refreshed.jumpFromOrigin.toList ++ [.status true], next⟩

def pasted (character : Char) : Char := if character = '\n' ∨ character = '\r' then ' ' else character

/-- Apply one edit to the query being typed; ignored once editing ends. -/
def edit (edit : Edit) (documents : List SearchedDocument) (next : Nat) : Done :=
  match search.active.filter (·.editing) with
  | none => ⟨search, [], next⟩
  | some active =>
    match edit with
    | .type character =>
      requery engine rowsAt { active with query := active.query ++ [character] } documents next
    | .backspace => requery engine rowsAt { active with query := active.query.dropLast } documents next
    | .paste text =>
      requery engine rowsAt { active with query := active.query ++ text.map pasted } documents next
    | .accept => ⟨⟨some { active with editing := false }⟩, [.status false], next⟩
    | .cancel => search.cancel next

/-- Move from `current` to the next or previous match, wrapping around. -/
def step (direction : Direction) (current : Option Location) : List Intent :=
  let jump := do
    let active ← search.active.filter fun (active : ActiveSearch) => !active.editing
    active.step direction (← current)
  jump.toList ++ [.status true]

/-- Drop the search without moving the cursor. -/
def clear (next : Nat) : Done := ⟨⟨none⟩, search.cancelPending ++ [.status true], next⟩

/-- Recompute the matches after the documents changed. -/
def refresh (documents : List SearchedDocument) (next : Nat) : Done :=
  match search.active with
  | none => ⟨search, [], next⟩
  | some active =>
    let (refreshed, intent, next) := active.refresh engine rowsAt documents next
    ⟨⟨some refreshed⟩, intent.toList, next⟩

/-- Recompute the matches after one more document finished loading, and keep following the first
match while the query or the repository is still changing. -/
def documentsLoaded (documents : List SearchedDocument) (next : Nat) : Done :=
  match search.active with
  | none => ⟨search, [], next⟩
  | some active =>
    let (refreshed, intent, next) := active.refresh engine rowsAt documents next
    let jump := if refreshed.editing || refreshed.waitingForRepository then refreshed.jumpFromOrigin
      else none
    ⟨⟨some refreshed⟩, intent.toList ++ jump.toList, next⟩

/-- The viewer started loading every document so the search covers them, or no document is
loading any more. -/
def setWaiting (waiting : Bool) : Search :=
  ⟨search.active.map fun active => { active with waitingForRepository := waiting }⟩

def waitForRepository : Search := search.setWaiting true

def repositoryLoaded : Search := search.setWaiting false

/-- Continue after the viewer was hidden: the shared worker may have replaced this search's
request with another viewer's. -/
def resume (documents : List SearchedDocument) (next : Nat) : Done :=
  match search.active.bind (·.pending) with
  | some request => ⟨search, [.request request], next⟩
  | none => search.refresh engine rowsAt documents next

/-- Whether the search is waiting for these results, and whether they still describe its
documents. -/
def awaited (results : Results) (documents : List SearchedDocument) :
    Option (ActiveSearch × Freshness) := do
  let active ← search.active
  let request ← active.pending.filter fun request => request.id = results.id
  return (active, if request.documents = texts documents then .current else .stale)

/-- Accept background results in the viewer the reviewer is looking at. -/
def complete (results : Results) (documents : List SearchedDocument) (next : Nat) : Done :=
  match search.awaited results documents with
  | none => ⟨search, [], next⟩
  | some (active, .stale) =>
    let (refreshed, intent, next) := active.refresh engine rowsAt documents next
    ⟨⟨some { refreshed with navigateOnResults := active.navigateOnResults }⟩, intent.toList, next⟩
  | some (active, .current) =>
    let accepted := active.accept results documents
    let jump := if accepted.navigateOnResults then accepted.jumpFromOrigin else none
    ⟨⟨some accepted⟩, jump.toList ++ [.status true], next⟩

/-- Keep background results in a viewer the reviewer is not looking at, without moving it. -/
def retain (results : Results) (documents : List SearchedDocument) : Search :=
  match search.awaited results documents with
  | none => search
  | some (active, .current) => ⟨some (active.accept results documents)⟩
  | some (active, .stale) => ⟨some { active with pending := none, matched := none }⟩

end Search

end ProgressiveReviewer.DiffSearch
