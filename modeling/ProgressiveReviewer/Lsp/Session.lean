import Mathlib.Algebra.Ring.Nat
import ProgressiveReviewer.Library.Failing
import ProgressiveReviewer.Library.LineText
import Mathlib.Data.List.Basic

/-! One session with a language server (`review-lsp/src/api.rs`, `session.rs`, `language.rs`).
What a server asked to watch, how a location is read back and what its JSON decodes to come
from outside. -/

namespace ProgressiveReviewer.Lsp

open Library

abbrev ToastId := Nat

/-- A path by its components. -/
abbrev Path := List String

/-- A time in milliseconds. -/
abbrev Instant := Nat

inductive Operation where
  | hover
  | definition
  | references
  | typeDefinition
  deriving DecidableEq, Repr

structure Query where
  toastId : ToastId
  path : Path
  line : Nat
  byteColumn : Nat
  expectedLine : String
  snapshotId : String
  deriving DecidableEq, Repr

structure SourceLocation where
  path : Path
  line : Nat
  byteColumn : Nat
  endLine : Nat
  endByteColumn : Nat
  deriving DecidableEq, Repr

inductive FileChangeKind where
  | created
  | changed
  | deleted
  deriving DecidableEq, Repr

structure FileChange where
  path : Path
  kind : FileChangeKind
  deriving DecidableEq, Repr

structure ServerStartup where
  id : ToastId
  name : String
  deriving DecidableEq, Repr

inductive Event where
  | initializing (startup : ServerStartup)
  | ready (startup : ServerStartup)
  | hover (toastId : ToastId) (snapshotId : String) (markdown : Option String)
  | locations (toastId : ToastId) (operation : Operation) (snapshotId : String)
      (locations : List SourceLocation) (unindexedFiles : Nat)
  | failed (toastId : Option ToastId) (snapshotId : Option String) (message : String)
  deriving DecidableEq, Repr

/-- Only references are limited to the project. -/
def Operation.filterLocations (operation : Operation) (root : Path) (locations : List SourceLocation) :
    List SourceLocation :=
  locations.filter fun location => operation ≠ .references || root.isPrefixOf location.path

inductive LanguageServer where
  | rustAnalyzer
  | expert
  | typeScript
  deriving DecidableEq, Repr

structure Project where
  server : LanguageServer
  root : Path
  deriving DecidableEq, Repr

/-- What follows the last dot of a file's name, when the name does not start with it. -/
def extension (path : Path) : Option String :=
  path.getLast?.bind fun name =>
    if name = ".." then none
    else match name.toList.reverse.span (· ≠ '.') with
      | (reversed, _ :: _ :: _) => some (String.ofList reversed.reverse)
      | _ => none

namespace LanguageServer

def command : LanguageServer → String
  | rustAnalyzer => "rust-analyzer"
  | expert => "expert"
  | typeScript => "/bin/sh"

def name : LanguageServer → String
  | typeScript => "TypeScript language server"
  | server => server.command

/-- Whether the server's index misses a file that changes outside an open document. -/
def missesDiskChange (server : LanguageServer) (path : Path) : Bool :=
  server = expert && (extension path).any fun extension => extension = "ex" || extension = "exs"

end LanguageServer

/-- The language that a file's extension names. -/
def languageFor (path : Path) : Option String :=
  (extension path).bind fun extension =>
    match extension.toLower with
    | "rs" => some "rust"
    | "ex" | "exs" => some "elixir"
    | "eex" => some "eelixir"
    | "heex" => some "heex"
    | "ts" | "mts" | "cts" => some "typescript"
    | "tsx" => some "typescriptreact"
    | "js" | "mjs" | "cjs" => some "javascript"
    | "jsx" => some "javascriptreact"
    | _ => none

inductive Encoding where
  | utf8
  | utf16
  | utf32
  deriving DecidableEq, Repr

/-- The characters before a byte, when a character starts or the line ends there. -/
def beforeByte : Nat → List Char → Option (List Char)
  | 0, _ => some []
  | _ + 1, [] => none
  | byte + 1, first :: rest =>
    if first.utf8Size ≤ byte + 1 then
      (beforeByte (byte + 1 - first.utf8Size) rest).map (first :: ·)
    else none

def utf16Size (character : Char) : Nat := if character.val < 0x10000 then 1 else 2

def maxU32 : Nat := 2 ^ 32 - 1

def encodedColumn (line : String) (byte : Nat) (encoding : Encoding) : Except String Nat := do
  let before ← match beforeByte byte line.toList with
    | some before => .ok before
    | none => .error "the source column is invalid"
  let count := match encoding with
    | .utf8 => byte
    | .utf32 => before.length
    | .utf16 => (before.map utf16Size).sum
  if count ≤ maxU32 then .ok count else .error "the source column is too large"

/-- A line without its end, where a carriage return before the newline is part of the end. -/
def withoutEnd (line : List Char) : List Char :=
  if line.getLast? ≠ some '\n' then line
  else if line.dropLast.getLast? = some '\r' then line.dropLast.dropLast
  else line.dropLast

def lines (text : String) : List String :=
  (splitInclusive (· = '\n') text.toList).map fun line => String.ofList (withoutEnd line)

/-- An identifier of this end is a number; a server may also answer to a text. -/
inductive RequestId where
  | number (id : Int)
  | text (id : String)
  deriving DecidableEq, Repr

/-- The largest identifier 32 bits hold. -/
def maxId : Nat := 2 ^ 31 - 1

inductive State where
  | initializing (id : Nat) (deadline : Instant)
  | quiescing (deadline : Instant)
  | ready
  | querying (id : Nat) (operation : Operation) (query : Query) (attempt : Nat) (deadline : Instant)
  | retrying (operation : Operation) (query : Query) (attempt : Nat) (retryAt : Instant)
  | shuttingDown (id : Nat) (deadline : Instant)
  | stopped
  deriving DecidableEq, Repr

/-- A request as it was written to the server. -/
structure Sent where
  id : Nat
  operation : Operation
  query : Query
  attempt : Nat
  deriving DecidableEq, Repr

structure Session where
  server : LanguageServer
  usesDirenv : Bool
  startup : ServerStartup
  nextId : Nat
  encoding : Encoding
  /-- The text and the version of each document the server knows. -/
  documents : List (Path × String × Nat)
  /-- Files changed on disk that the server's index misses until it restarts. -/
  unindexed : List Path
  state : State
  /-- What this session wrote so far. -/
  sent : List Sent
  deriving DecidableEq, Repr

namespace Session

variable (session : Session)

def isReady : Bool := session.state = .ready

def isStopped : Bool := session.state = .stopped

def activeQuery : Option Query :=
  match session.state with
  | .querying _ _ query _ _ | .retrying _ query _ _ => some query
  | _ => none

def nextDeadline : Option Instant :=
  match session.state with
  | .initializing _ deadline | .quiescing deadline | .querying _ _ _ _ deadline
  | .shuttingDown _ deadline => some deadline
  | .retrying _ _ _ retryAt => some retryAt
  | .ready | .stopped => none

end Session

/-- What a server sends, where `Value` is JSON. -/
inductive Message (Value : Type) where
  | request (method : String)
  | notification (method : String) (params : Value)
  | response (id : RequestId) (result : Except String Value)

inductive Inbound (Value : Type) where
  | message (message : Message Value)
  | failed (error : String)

/-- What is outside the program: the answers to its questions, by how many it asked before,
and what JSON decodes to. -/
structure Outside (Value : Type) where
  spawn : Nat → Except String Bool
  startupFailure : Nat → String → String
  toast : Nat → ToastId
  uri : Nat → Path → Except String String
  read : Nat → Path → Except String String
  write : Nat → Except String Unit
  /-- The changed files that the server asked to hear of. -/
  watched : Nat → List FileChange → List Path
  normalize : Nat → Encoding → List Value → List SourceLocation
  initialized : Value → Except String (Option Encoding)
  quiescent : Value → Except String Bool
  hover : Value → Except String (Option String)
  found : Operation → Value → Except String (List Value)

/-- A session at work, with how often the outside was asked and all that was written. -/
structure Scene where
  session : Session
  asked : Nat
  sent : List Sent

abbrev SessionWork := EStateM String Scene

def initializeTimeout : Instant := 30000

def startupTimeout : Instant := 300000

def serverStatusMethod : String := "experimental/serverStatus"

def sourceChanged : String := "the source changed; wait for the review to refresh"

def joined (path : Path) : String := "/".intercalate path

namespace SessionWork

variable {Value : Type} (outside : Outside Value)

/-- The next answer of the outside. -/
def ask {α : Type} (answer : Nat → α) : SessionWork α := do
  let asked := (← get).asked
  modify fun scene => { scene with asked := asked + 1 }
  return answer asked

def setState (state : State) : SessionWork Unit :=
  modify fun scene => { scene with session.state := state }

/-- Write a message that is no request of a query. -/
def write : SessionWork Unit := do
  let session := (← get).session
  match ← ask outside.write with
  | .ok () => pure ()
  | .error error => throw s!"could not write to {session.server.name}: {error}"

def pathUri (path : Path) : SessionWork String := do
  found (← ask fun asked => outside.uri asked path)

def readText (path : Path) : SessionWork String := do
  match ← ask fun asked => outside.read asked path with
  | .ok text => pure text
  | .error error => throw s!"could not read {joined path}: {error}"

def initializeSession (project : Project) (now : Instant) : SessionWork Unit := do
  let _ ← pathUri outside project.root
  write outside
  let session := (← get).session
  setState (.initializing 0 (now + if session.usesDirenv then startupTimeout else initializeTimeout))

def document (session : Session) (path : Path) : Option (String × Nat) :=
  (session.documents.find? (·.1 = path)).map Prod.snd

/-- Tell the server the text of a document, unless it knows it. -/
def syncDocument (path : Path) (text : String) : SessionWork Unit := do
  match document (← get).session path with
  | some (old, version) =>
    if old = text then pure ()
    else
      modify fun scene => { scene with
        session.documents := scene.session.documents.map fun entry =>
          if entry.1 = path then (path, text, min (version + 1) maxId) else entry
        session.unindexed := scene.session.unindexed.filter (· ≠ path) }
      write outside
  | none =>
    match languageFor path with
    | none => throw "No language server supports this file"
    | some _ =>
      write outside
      modify fun scene => { scene with
        session.documents := scene.session.documents ++ [(path, text, 1)] }

def openDocument (path : Path) : SessionWork Unit := do
  let text ← readText outside path
  let _ ← pathUri outside path
  syncDocument outside path text

/-- Write the request of a query under the next identifier, and wait for its answer. -/
def writeRequest (operation : Operation) (query : Query) (attempt : Nat) (now : Instant) :
    SessionWork Unit := do
  let id := (← get).session.nextId
  let sent : Sent := { id, operation, query, attempt }
  modify fun scene => { scene with
    session.nextId := min (id + 1) maxId
    session.sent := scene.session.sent ++ [sent]
    sent := scene.sent ++ [sent] }
  write outside
  setState (.querying id operation query attempt (now + initializeTimeout))

def startQuery (operation : Operation) (query : Query) (attempt : Nat) (now : Instant) :
    SessionWork Unit := do
  let text ← readText outside query.path
  match (lines text)[query.line]? with
  | none => throw sourceChanged
  | some line =>
    if line ≠ query.expectedLine ∨ beforeByte query.byteColumn line.toList = none then
      throw sourceChanged
    else
      let _ ← pathUri outside query.path
      syncDocument outside query.path text
      let _ ← found (encodedColumn line query.byteColumn (← get).session.encoding)
      writeRequest outside operation query attempt now

def request (operation : Operation) (query : Query) (now : Instant) : SessionWork Unit :=
  startQuery outside operation query 0 now

/-- A file changed on disk: its index entry, and its text when it is open. -/
def fileChanged (change : FileChange) : SessionWork Unit := do
  let session := (← get).session
  let isDeleted := change.kind = .deleted
  let isOpen := (document session change.path).isSome
  let unindexed :=
    if isDeleted then session.unindexed.filter fun path => !change.path.isPrefixOf path
    else if !isOpen && session.server.missesDiskChange change.path then
      session.unindexed.filter (· ≠ change.path) ++ [change.path]
    else session.unindexed.filter (· ≠ change.path)
  modify fun scene => { scene with session.unindexed := unindexed }
  if isDeleted ∨ !isOpen then pure ()
  else
    let text ← ask fun asked => outside.read asked change.path
    let uri ← ask fun asked => outside.uri asked change.path
    match text, uri with
    | .ok text, .ok _ => syncDocument outside change.path text
    | _, _ => pure ()

def filesChanged (changes : List FileChange) : SessionWork Unit := do
  changes.forM (fileChanged outside)
  let events ← ask fun asked => outside.watched asked changes
  if events.isEmpty then pure () else write outside

/-- Locations as the server's answer gives them, with the files its index misses. -/
def queryLocations (operation : Operation) (query : Query) (result : Except String Value)
    (unindexedFiles : Nat) : SessionWork (Except String Event) := do
  let encoding := (← get).session.encoding
  match result.bind (outside.found operation) with
  | .ok locations =>
    let normalized ← ask fun asked => outside.normalize asked encoding locations
    return .ok (.locations query.toastId operation query.snapshotId normalized unindexedFiles)
  | .error error => return .error error

def queryResult (operation : Operation) (query : Query) (result : Except String Value) :
    SessionWork (Except String Event) := do
  match operation with
  | .hover =>
    return (result.bind outside.hover).map fun markdown => .hover query.toastId query.snapshotId markdown
  | .definition | .typeDefinition => queryLocations outside operation query result 0
  | .references => queryLocations outside operation query result (← get).session.unindexed.length

/-- The event that answers a query. -/
def queryEvent (operation : Operation) (query : Query) (result : Except String Value) :
    SessionWork Event := do
  match ← queryResult outside operation query result with
  | .ok event => pure event
  | .error message => pure (.failed (some query.toastId) (some query.snapshotId) message)

/-- The server is busy with other content than the request was about. -/
def contentModified (result : Except String Value) : Bool :=
  match result with
  | .error message => message = "content modified"
  | .ok _ => false

/-- The state is taken out while a response is handled, and put back for one that it does not
wait for. -/
def handleResponse (id : RequestId) (result : Except String Value) (now : Instant) :
    SessionWork (Option Event) := do
  let session := (← get).session
  setState .stopped
  match session.state with
  | .initializing waiting deadline =>
    if id = .number waiting then
      let encoding ← found (result.bind outside.initialized)
      modify fun scene => { scene with session.encoding := encoding.getD .utf16 }
      write outside
      if session.server = .rustAnalyzer then
        setState (.quiescing (now + startupTimeout))
        pure none
      else
        setState .ready
        pure (some (.ready session.startup))
    else
      setState (.initializing waiting deadline)
      pure none
  | .querying waiting operation query attempt deadline =>
    if id = .number waiting then
      if contentModified result ∧ attempt < 9 then
        setState (.retrying operation query (attempt + 1) (now + 100))
        pure none
      else
        setState .ready
        let event ← queryEvent outside operation query result
        pure (some event)
    else
      setState (.querying waiting operation query attempt deadline)
      pure none
  | .shuttingDown waiting deadline =>
    if id = .number waiting then
      write outside
      setState .stopped
      pure none
    else
      setState (.shuttingDown waiting deadline)
      pure none
  | state =>
    setState state
    pure none

def handle (inbound : Inbound Value) (now : Instant) : SessionWork (Option Event) := do
  match inbound with
  | .message (.request _) =>
    write outside
    pure none
  | .message (.notification method params) =>
    let session := (← get).session
    match session.state with
    | .quiescing _ =>
      if method ≠ serverStatusMethod then pure none
      else
        match outside.quiescent params with
        | .error error => throw s!"invalid rust-analyzer status: {error}"
        | .ok true =>
          setState .ready
          pure (some (.ready session.startup))
        | .ok false => pure none
    | _ => pure none
  | .message (.response id result) => handleResponse outside id result now
  | .failed error => throw error

def handleDeadline (now : Instant) : SessionWork (Option Event) := do
  let session := (← get).session
  setState .stopped
  match session.state with
  | .initializing id deadline =>
    if deadline ≤ now then throw s!"{session.server.name} did not respond"
    else
      setState (.initializing id deadline)
      pure none
  | .quiescing deadline =>
    if deadline ≤ now then throw s!"{session.server.name} did not finish startup"
    else
      setState (.quiescing deadline)
      pure none
  | .retrying operation query attempt retryAt =>
    setState (.retrying operation query attempt retryAt)
    if retryAt ≤ now then
      startQuery outside operation query attempt now
      pure none
    else pure none
  | .querying id operation query attempt deadline =>
    if deadline ≤ now then
      setState .ready
      pure (some (.failed (some query.toastId) (some query.snapshotId)
        s!"{session.server.name} did not respond"))
    else
      setState (.querying id operation query attempt deadline)
      pure none
  | .shuttingDown id deadline =>
    if deadline ≤ now then
      write outside
      setState .stopped
      pure none
    else
      setState (.shuttingDown id deadline)
      pure none
  | state =>
    setState state
    pure none

def beginShutdown (now : Instant) : SessionWork Unit := do
  let id := (← get).session.nextId
  modify fun scene => { scene with session.nextId := min (id + 1) maxId }
  write outside
  setState (.shuttingDown id (now + 1000))

end SessionWork

end ProgressiveReviewer.Lsp
