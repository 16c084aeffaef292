import ProgressiveReviewer.Threads.Sequences
import ProgressiveReviewer.Library.Runs

/-! The drafts saved for one review (`review-threads/src/draft.rs`). -/

namespace ProgressiveReviewer.Drafts

open Library Threads

inductive DraftTarget
  | file (path : String)
  | thread (id : ThreadId)
  deriving DecidableEq, Repr

structure Draft where
  target : DraftTarget
  source : ThreadSource
  replyTo : Option MessageId
  text : String
  id : MessageId
  thread : ThreadId
  deriving DecidableEq, Repr

def Draft.isNewThread (draft : Draft) : Bool :=
  match draft.target with
  | .file _ => true
  | .thread _ => false

def Draft.lacksThread (draft : Draft) (threads : ReviewThreads) : Bool :=
  match draft.target with
  | .file _ => false
  | .thread id => (threads.thread id).isNone

/-- The draft keeps its identity when it is posted. -/
def Draft.post (draft : Draft) : Post where
  threadId := draft.thread
  message := { id := draft.id, author := .reviewer, text := draft.text }
  subject := if draft.isNewThread then some (.code draft.source) else none

structure SavedDrafts where
  drafts : List Draft
  deriving DecidableEq, Repr

namespace SavedDrafts

variable (saved : SavedDrafts)

def empty : SavedDrafts := ⟨[]⟩

def discard (thread : ThreadId) : SavedDrafts :=
  ⟨saved.drafts.filter fun draft => draft.thread ≠ thread⟩

def keep (draft : Draft) : SavedDrafts := ⟨(saved.discard draft.thread).drafts ++ [draft]⟩

def save (draft : Draft) (threads : ReviewThreads) : Except String SavedDrafts :=
  if draft.lacksThread threads then
    .error "The draft's review thread no longer exists"
  else if (threads.message draft.id).isSome then .error "This draft has already been posted"
  else .ok (saved.keep draft)

/-- One draft of another store, unless its thread has one here. -/
def mergeDraft (draft : Draft) : SavedDrafts :=
  if saved.drafts.any fun kept => kept.thread = draft.thread then saved
  else ⟨saved.drafts ++ [draft]⟩

def merge (other : SavedDrafts) : SavedDrafts := other.drafts.foldl mergeDraft saved

def forgetPosted (threads : ReviewThreads) : SavedDrafts :=
  ⟨saved.drafts.filter fun draft => (threads.message draft.id).isNone⟩

/-- Adopt the drafts that a thread document carries. -/
def adopt (embedded : SavedDrafts) : SavedDrafts := embedded.drafts.foldl keep saved

/-! ## One draft per thread -/

def OnePerThread : Prop := (saved.drafts.map Draft.thread).Nodup

inductive Change
  | save (draft : Draft) (threads : ReviewThreads)
  | keep (draft : Draft)
  | merge (other : SavedDrafts)
  | discard (thread : ThreadId)
  | forgetPosted (threads : ReviewThreads)

/-- A save that is refused changes nothing. -/
def after : Change → SavedDrafts
  | .save draft threads => (saved.save draft threads).toOption.getD saved
  | .keep draft => saved.keep draft
  | .merge other => saved.merge other
  | .discard thread => saved.discard thread
  | .forgetPosted threads => saved.forgetPosted threads

variable {saved} {draft other : Draft} {threads : ReviewThreads}

theorem mem_discard {thread : ThreadId} :
    draft ∈ (saved.discard thread).drafts ↔ draft ∈ saved.drafts ∧ draft.thread ≠ thread := by
  simp [discard]

theorem mem_keep : other ∈ (saved.keep draft).drafts ↔
    other ∈ saved.drafts ∧ other.thread ≠ draft.thread ∨ other = draft := by
  rw [keep, List.mem_append, mem_discard, List.mem_singleton]

theorem mem_forgetPosted : draft ∈ (saved.forgetPosted threads).drafts ↔
    draft ∈ saved.drafts ∧ draft.id ∉ threads.messages.map Message.id := by
  simp [forgetPosted, ReviewThreads.message_eq_none]

theorem mem_adopt {embedded : SavedDrafts} (mem : draft ∈ (saved.adopt embedded).drafts) :
    draft ∈ saved.drafts ∨ draft ∈ embedded.drafts := by
  obtain ⟨embedded⟩ := embedded
  induction embedded generalizing saved with
  | nil => exact .inl mem
  | cons first rest ih =>
    rcases ih mem with kept | inRest
    · rcases mem_keep.mp kept with ⟨old, -⟩ | rfl
      · exact .inl old
      · exact .inr List.mem_cons_self
    · exact .inr (List.mem_cons_of_mem _ inRest)

theorem save_eq_ok {changed : SavedDrafts} (ok : saved.save draft threads = .ok changed) :
    changed = saved.keep draft ∧ draft.id ∉ threads.messages.map Message.id := by
  unfold save at ok
  split_ifs at ok with gone posted
  cases ok
  refine ⟨rfl, ReviewThreads.message_eq_none.mp ?_⟩
  rwa [Option.not_isSome_iff_eq_none] at posted

namespace OnePerThread

variable (one : OnePerThread saved)
include one

theorem filter (keeps : Draft → Bool) : OnePerThread ⟨saved.drafts.filter keeps⟩ :=
  List.Nodup.sublist (List.filter_sublist.map _) one

theorem append (fresh : ∀ kept ∈ saved.drafts, kept.thread ≠ draft.thread) :
    OnePerThread ⟨saved.drafts ++ [draft]⟩ := by
  simp only [OnePerThread, List.map_append, List.map_cons, List.map_nil]
  refine List.Nodup.append one (List.nodup_singleton _) (List.disjoint_singleton.mpr fun mem => ?_)
  obtain ⟨kept, inside, same⟩ := List.mem_map.mp mem
  exact fresh kept inside same

theorem keep (draft : Draft) : OnePerThread (saved.keep draft) :=
  (one.filter _).append fun _ mem => (mem_discard.mp mem).2

theorem mergeDraft (draft : Draft) : OnePerThread (saved.mergeDraft draft) := by
  unfold SavedDrafts.mergeDraft
  split_ifs with held
  · exact one
  · refine one.append fun kept mem same => held (List.any_eq_true.mpr ⟨kept, mem, ?_⟩)
    exact decide_eq_true same

theorem foldl {change : SavedDrafts → Draft → SavedDrafts}
    (keeps : ∀ {saved}, OnePerThread saved → ∀ draft, OnePerThread (change saved draft))
    (drafts : List Draft) : OnePerThread (drafts.foldl change saved) := by
  induction drafts generalizing saved with
  | nil => exact one
  | cons draft rest ih => exact ih (keeps one draft)

theorem adopt (embedded : SavedDrafts) : OnePerThread (saved.adopt embedded) :=
  one.foldl OnePerThread.keep embedded.drafts

theorem save {changed : SavedDrafts} (ok : saved.save draft threads = .ok changed) :
    OnePerThread changed :=
  (save_eq_ok ok).1 ▸ one.keep draft

theorem after (change : Change) : OnePerThread (saved.after change) := by
  cases change with
  | save draft threads =>
    change OnePerThread ((saved.save draft threads).toOption.getD saved)
    cases ok : saved.save draft threads with
    | error => exact one
    | ok changed => exact one.save ok
  | keep draft => exact one.keep draft
  | merge other => exact one.foldl OnePerThread.mergeDraft other.drafts
  | discard thread => exact one.filter _
  | forgetPosted threads => exact one.filter _

end OnePerThread

theorem onePerThread_of_changes (changes : List Change) :
    OnePerThread (changes.foldl SavedDrafts.after empty) := by
  have kept : ∀ (saved : SavedDrafts) (changes : List Change), OnePerThread saved →
      OnePerThread (changes.foldl SavedDrafts.after saved) := by
    intro saved changes one
    induction changes generalizing saved with
    | nil => exact one
    | cons change rest ih => exact ih _ (one.after change)
  exact kept empty changes List.nodup_nil

end SavedDrafts

end ProgressiveReviewer.Drafts

/-! The thread document and the draft document of one review, as reviewer processes use them
(`review-store/src/threads.rs`, `drafts.rs`). The lock of the draft document makes each change of
it one step; the thread document is read without its lock, and changed under it. -/

namespace ProgressiveReviewer.Drafts

open Library Threads

/-- A decoded thread document, with the drafts that an earlier build put in it. -/
structure ThreadDocument where
  threads : ReviewThreads
  embeddedDrafts : SavedDrafts

abbrev Process := Nat

/-- A change of the drafts that a reviewer asks for. -/
inductive DraftChange
  | save (draft : Draft)
  | discard (thread : ThreadId)
  | forget
  deriving DecidableEq

/-- What the threads are loaded for. -/
inductive Purpose
  | load
  | change (change : DraftChange)
  deriving DecidableEq

/-- What the thread document is changed for: to move its drafts, while the threads are loaded, or
to apply an operation. -/
inductive Update
  | migrate (purpose : Purpose) (first : ReviewThreads)
  | operate (operation : Operation)

/-- Where a process is. -/
inductive Doing
  | idle
  | loading (purpose : Purpose)
  | waiting (update : Update)
  | locked (update : Update) (document : ThreadDocument)
  | adopted (update : Update) (document : ThreadDocument)
  | ready (purpose : Purpose) (threads : ReviewThreads)

/-- Both documents, the holder of the threads' lock and what each process does; `kept` has, for
each thread, the draft last saved for it and not discarded since. -/
structure Reviewers where
  document : ThreadDocument
  drafts : SavedDrafts
  lock : Option Process
  doing : Process → Doing
  kept : ThreadId → Option Draft

def Doing.update : Doing → Option Update
  | waiting update | locked update _ | adopted update _ => some update
  | _ => none

inductive Action
  | load (purpose : Purpose)
  | update (operation : Operation)
  | read
  | lock
  | adopt
  | write
  | unsynced
  | use
  | fail
  | crash

namespace DraftChange

/-- Change the drafts, checked against the threads that were loaded. -/
def apply (saved : SavedDrafts) (threads : ReviewThreads) :
    DraftChange → Except String SavedDrafts
  | save draft => saved.save draft threads
  | discard thread => .ok (saved.discard thread)
  | forget => .ok saved

/-- The drafts last saved, once the change went through. -/
def record (kept : ThreadId → Option Draft) : DraftChange → ThreadId → Option Draft
  | save draft => Function.update kept draft.thread (some draft)
  | discard thread => Function.update kept thread none
  | forget => kept

end DraftChange

namespace Reviewers

def start (document : ThreadDocument) (drafts : SavedDrafts) : Reviewers :=
  ⟨document, drafts, none, fun _ => .idle, fun _ => none⟩

variable (all : Reviewers) (process : Process)

def move (doing : Doing) : Reviewers :=
  { all with doing := Function.update all.doing process doing }

/-- Leave the threads' lock. -/
def unlock : Reviewers :=
  { all with lock := if all.lock = some process then none else all.lock }

/-- The drafts that `load_drafts` returns for the threads it loaded. -/
def loaded (threads : ReviewThreads) : SavedDrafts := all.drafts.forgetPosted threads

/-- What `update_drafts` writes for the threads it loaded, unless the change is refused. -/
def changed (change : DraftChange) (threads : ReviewThreads) : Except String SavedDrafts :=
  change.apply (all.drafts.forgetPosted threads) threads

def useThreads (threads : ReviewThreads) : Purpose → Reviewers
  | .load => all.move process .idle
  | .change change =>
    match all.changed change threads with
    | .error _ => all.move process .idle
    | .ok drafts => { all.move process .idle with drafts, kept := change.record all.kept }

/-- Write what an update makes of the document it read, unless it refuses. -/
def writeThreads (document : ThreadDocument) : Update → Reviewers
  | .migrate purpose _ =>
    { (all.unlock process).move process (.ready purpose document.threads) with
      document := ⟨document.threads, .empty⟩ }
  | .operate operation =>
    match document.threads.perform operation with
    | (some _, _) => (all.unlock process).move process .idle
    | (none, threads) =>
      { (all.unlock process).move process .idle with document := ⟨threads, .empty⟩ }

/-- An update that fails: `load_threads` goes on with the threads that it read first. -/
def failUpdate : Update → Reviewers
  | .migrate purpose first => (all.unlock process).move process (.ready purpose first)
  | .operate _ => (all.unlock process).move process .idle

/-- The document is in place, and the sync of its directory fails. -/
def writeUnsynced (document : ThreadDocument) : Update → Reviewers
  | .migrate purpose first =>
    { all.failUpdate process (.migrate purpose first) with
      document := ⟨document.threads, .empty⟩ }
  | update => all.writeThreads process document update

def step : Process × Action → Reviewers
  | (process, .load purpose) => all.move process (.loading purpose)
  | (process, .update operation) => all.move process (.waiting (.operate operation))
  | (process, .read) =>
    match all.doing process with
    | .loading purpose =>
      if all.document.embeddedDrafts.drafts = [] then
        all.move process (.ready purpose all.document.threads)
      else all.move process (.waiting (.migrate purpose all.document.threads))
    | _ => all
  | (process, .lock) =>
    match all.doing process with
    | .waiting update =>
      { all.move process (.locked update all.document) with lock := some process }
    | _ => all
  | (process, .adopt) =>
    match all.doing process with
    | .locked update document =>
      { all.move process (.adopted update document) with
        drafts := all.drafts.adopt document.embeddedDrafts }
    | _ => all
  | (process, .write) =>
    match all.doing process with
    | .adopted update document => all.writeThreads process document update
    | _ => all
  | (process, .unsynced) =>
    match all.doing process with
    | .adopted update document => all.writeUnsynced process document update
    | _ => all
  | (process, .use) =>
    match all.doing process with
    | .ready purpose threads => all.useThreads process threads purpose
    | _ => all
  | (process, .fail) =>
    match (all.doing process).update with
    | some update => all.failUpdate process update
    | none => all.move process .idle
  | (process, .crash) => (all.unlock process).move process .idle

/-- Where each action can happen. -/
def May : Process × Action → Prop
  | (process, .load _) => all.doing process = .idle
  | (process, .update operation) => all.doing process = .idle ∧
      ∀ other, operation = .merge other → other.Sound
  | (process, .read) => ∃ purpose, all.doing process = .loading purpose
  | (process, .lock) => all.lock = none ∧ ∃ update, all.doing process = .waiting update
  | (process, .adopt) => ∃ update document, all.doing process = .locked update document
  | (process, .write) | (process, .unsynced) =>
    ∃ update document, all.doing process = .adopted update document
  | (process, .use) => ∃ purpose threads, all.doing process = .ready purpose threads
  | (_, .fail) | (_, .crash) => True

/-- A draft that a process would load or save with the threads that it has read already. -/
def InHand (draft : Draft) : Prop :=
  match all.doing process with
  | .ready (.change (.save own)) _ => draft = own
  | .ready .load _ | .waiting (.migrate .load _) => draft ∈ all.drafts.drafts
  | _ => False

/-- A process writes no message of a draft that another has in hand. -/
def SparesDrafts : Prop :=
  ∀ operation document, all.doing process = .adopted (.operate operation) document →
    ∀ other draft, other ≠ process → all.InHand other draft →
      draft.id ∈ (document.threads.after operation).messages.map Message.id →
        draft.id ∈ document.threads.messages.map Message.id

/-- Moving the drafts out of the thread document does not fail in a save, which would go on. -/
def MovesDrafts : Prop :=
  ∀ draft first, (all.doing process).update ≠ some (.migrate (.change (.save draft)) first)

def Careful : Process × Action → Prop
  | (process, .write) => all.SparesDrafts process
  | (process, .unsynced) => all.SparesDrafts process ∧ all.MovesDrafts process
  | (process, .fail) => all.MovesDrafts process
  | _ => True

end Reviewers

end ProgressiveReviewer.Drafts
