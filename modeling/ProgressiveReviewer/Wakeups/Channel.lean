import ProgressiveReviewer.Library.Runs
import ProgressiveReviewer.Wakeups.Worker

/-! What the worker holds for one review, and the moves it makes there. -/

namespace ProgressiveReviewer.Wakeups

open Library Threads

namespace Record

/-- Whether a record is that of a comment posted, retried or reopened. -/
def Asks (unit : ReviewUnit) (thread : ThreadId) (comment : Message) : Record → Prop
  | posted named message => named = unit ∧ message = comment.id
  | retried named id | reopened named id => named = unit ∧ id = thread
  | _ => False

def IsFailure (unit : ReviewUnit) : Record → Prop
  | published (.wakeup named (some _)) => named = unit
  | _ => False

/-- Whether a wakeup was requested or armed again. -/
def Touches (token : Token) : Record → Prop
  | requested _ named _ | interrupted _ named => named = token
  | _ => False

/-- Whether a notification's latest comment was asked for, or told, once more. -/
def Repeats (notice : Notice) : Record → Prop
  | requested _ token through => token = notice.token ∧ through = notice.through
  | sent other => other.token = notice.token ∧ other.through = notice.through
  | _ => False

def SentThrough (token : Token) (through : Nat) : Record → Prop
  | sent notice => notice.token = token ∧ notice.through = through
  | _ => False

def SentWith (token : Token) : Record → Prop
  | sent notice => notice.token = token
  | _ => False

/-- What allows the same comment to be told again: a Retry, a reopened thread, or an agent that
was released. -/
def Excuses (unit : ReviewUnit) (token : Token) : Record → Prop
  | retried named _ | reopened named _ => named = unit
  | interrupted _ named => named = token
  | _ => False

/-- Whether an error took the wakeup of an access away. -/
def Loses (token : Token) : Record → Prop
  | dropped _ named => named = token
  | outcome notice _ removed => removed = true ∧ notice.token = token
  | _ => False

instance (unit : ReviewUnit) (thread : ThreadId) (comment : Message) :
    DecidablePred (Asks unit thread comment) := fun record => by
  cases record <;> unfold Asks <;> infer_instance

instance (token : Token) : DecidablePred (Touches token) := fun record => by
  cases record <;> unfold Touches <;> infer_instance

instance (token : Token) (through : Nat) : DecidablePred (SentThrough token through) :=
  fun record => by cases record <;> unfold SentThrough <;> infer_instance

instance (unit : ReviewUnit) (token : Token) : DecidablePred (Excuses unit token) :=
  fun record => by cases record <;> unfold Excuses <;> infer_instance

instance (notice : Notice) : DecidablePred (Repeats notice) := fun record => by
  cases record <;> unfold Repeats <;> infer_instance

end Record

/-- Whether a wakeup lost to an error has not been followed by a notification. -/
def Lost (token : Token) : List Record → Prop := Since (Record.SentWith token) (Record.Loses token)

/-- Whether a request would tell the agent of a comment it was told of, after an error took the
wakeup away. -/
def Renews (history : List Record) (unit : ReviewUnit) (token : Token) (through : Nat) : Prop :=
  Lost token history ∧
    Since (Record.Excuses unit token) (Record.SentThrough token through) history

/-- Whether a comment was told with an access by a notification not known to have failed, or a
failure was published since it was asked. -/
def Told (unit : ReviewUnit) (token : Option Token) (history : List Record) (thread : ThreadId)
    (comment : Message) : Prop :=
  (∃ notice, .sent notice ∈ history ∧ notice.reviewUnit = unit ∧ token = some notice.token ∧
    comment.sequence ≤ notice.through ∧ ∀ e removed, .outcome notice (some e) removed ∉ history) ∨
  Since (Record.Asks unit thread comment) (Record.IsFailure unit) history

structure Channel where
  tab : String
  book : Option ReviewThreads
  retried : SortedMap ThreadId Nat
  scheduled : Option Notification
  /-- The access the review has. -/
  token : Option Token
  wakeup : Option Wakeup
  history : List Record

namespace Channel

variable (channel : Channel)

def recipient : Recipient := ⟨channel.tab, channel.retried⟩

def waits : Bool := channel.book.any fun book => book.hasNewMessagesFor channel.recipient

def pending : Option Nat :=
  channel.book.bind fun book => book.pendingCommentSequenceFor channel.recipient

/-- A notification is scheduled when something waits. -/
def reschedule (retry : Bool) : Channel :=
  if channel.waits then
    { channel with scheduled := some ⟨(channel.scheduled.getD {}).retry || retry⟩ }
  else channel

def record (record : Record) : Channel := { channel with history := record :: channel.history }

/-- A record that says nothing of the review and its access. -/
def Foreign (unit : ReviewUnit) : Record → Prop
  | .posted named _ | .retried named _ | .reopened named _ => named ≠ unit
  | .granted named token | .requested named token _ | .interrupted named token
  | .dropped named token => named ≠ unit ∧ channel.token ≠ some token
  | .sent notice => notice.reviewUnit ≠ unit ∧ channel.token ≠ some notice.token
  | .outcome notice failure removed => failure = none ∧ removed = false ∨
      (removed = true → notice.reviewUnit ≠ unit) ∧ channel.token ≠ some notice.token
  | .published _ => True

end Channel

namespace Record

/-- The access a record is about. -/
def token : Record → Option Token
  | granted _ token | requested _ token _ | interrupted _ token | dropped _ token => some token
  | sent notice | outcome notice _ _ => some notice.token
  | _ => none

end Record

/-- A document as a review gets it: as it was, or with a new message. -/
structure Receives (base after : ReviewThreads) (new : Option MessageId) : Prop where
  extends_ : ReviewThreads.Extends base after
  shut : ReviewThreads.KeepsShut base after
  named : ∀ message ∈ after.messages, base.sequence < message.sequence → new = some message.id
  fresh : ∀ id, new = some id → ∀ message ∈ base.messages, message.id ≠ id

/-- A thread is brought to this tab's agent again. -/
structure Releases (base after : ReviewThreads) (retried retried' : SortedMap ThreadId Nat)
    (id : ThreadId) : Prop where
  extends_ : ReviewThreads.Extends base after
  old : ∀ message ∈ after.messages, message.sequence ≤ base.sequence
  isOpen : ∀ thread ∈ after.threads, thread.id = id → thread.resolution = .open
  covers : ∀ thread ∈ after.threads, thread.id = id → ∀ last, thread.lastComment = some last →
    retried'.lookup id = some last.sequence
  others : ∀ other, other ≠ id → retried'.lookup other = retried.lookup other

/-- The moves in one review. Under `strict`, no request tells a comment again after an error, and
no failure comes to a wakeup that was asked or told once more and looks as it did. -/
inductive Move (strict : Prop) (unit : ReviewUnit) : Channel → Channel → Prop
  | revise {c : Channel} (base after : ReviewThreads) (new : Option MessageId) :
    c.book = some base ∨ c.book = none ∧ base.Sound → Receives base after new →
    Move strict unit c ({ c with
      book := some after
      history := new.elim c.history fun id => .posted unit id :: c.history }.reschedule false)
  | attend {c : Channel} (base after : ReviewThreads) :
    c.book = some base → ReviewThreads.Quiet base after →
    Move strict unit c { c with book := some after }
  | ask {c : Channel} (base after : ReviewThreads) (retried : SortedMap ThreadId Nat)
      (id : ThreadId) (asked : Record) :
    c.book = some base → Releases base after c.retried retried id →
    asked = .retried unit id ∨ asked = .reopened unit id →
    Move strict unit c ({ c with
      book := some after
      retried := retried
      history := asked :: c.history }.reschedule true)
  | cancel {c : Channel} : c.waits = false →
    Move strict unit c { c with scheduled := none, wakeup := none }
  | giveUp {c : Channel} (failure : WakeupFailure) :
    Move strict unit c { c with
      scheduled := none
      history := .published (.wakeup unit (some failure)) :: c.history }
  | grant {c : Channel} (token : Token) (sequence : Nat) (retry : Bool) :
    c.pending = some sequence → (∀ record ∈ c.history, record.token ≠ some token) →
    Move strict unit c { c with
      scheduled := none
      token := some token
      wakeup := some (({} : Wakeup).request sequence retry)
      history := .requested unit token sequence :: .granted unit token :: c.history }
  | request {c : Channel} (token : Token) (sequence : Nat) (retry : Bool) :
    c.token = some token → c.pending = some sequence → c.scheduled = some ⟨retry⟩ →
    (strict → retry = false → ¬ Renews c.history unit token sequence) →
    Move strict unit c { c with
      scheduled := none
      wakeup := some ((c.wakeup.getD {}).request sequence retry)
      history := .requested unit token sequence :: c.history }
  | renew {c : Channel} (token : Token) (sequence : Nat) :
    c.token = some token → c.pending = some sequence → c.wakeup = none →
    (strict → ¬ Renews c.history unit token sequence) →
    Move strict unit c { c with
      wakeup := some (({} : Wakeup).request sequence false)
      history := .requested unit token sequence :: c.history }
  | interrupt {c : Channel} (token : Token) : c.token = some token →
    Move strict unit c { c with
      wakeup := c.wakeup.map Wakeup.interrupted
      history := .interrupted unit token :: c.history }
  | answer {c : Channel} : c.waits = false →
    Move strict unit c { c with wakeup := c.wakeup.map Wakeup.answered }
  | send {c : Channel} (token : Token) (wakeup : Wakeup) (id : Nat) :
    c.token = some token → c.wakeup = some wakeup → wakeup.needsPoll = true →
    c.scheduled ≠ some ⟨true⟩ →
    (∀ notice : Notice, notice.id = id → .sent notice ∉ c.history ∧
      ∀ failure removed, .outcome notice failure removed ∉ c.history) →
    Move strict unit c { c with
      wakeup := some wakeup.sent
      history := .sent ⟨id, unit, token, wakeup.requestedThrough⟩ :: c.history }
  | drop {c : Channel} (token : Token) (failure : WakeupFailure) : c.token = some token →
    Move strict unit c { c with
      wakeup := none
      history := .published (.wakeup unit (some failure)) :: .dropped unit token :: c.history }
  | mismatch {c : Channel} (token : Token) : c.token = some token → c.waits = true →
    Move strict unit c ({ c with
      wakeup := none
      history := .dropped unit token :: c.history }.reschedule false)
  | fail {c : Channel} (notice : Notice) (e : Prompts.PromptError) (removed : Bool)
      (failure : WakeupFailure) :
    c.token = some notice.token → .sent notice ∈ c.history →
    removed = c.wakeup.any (·.unchangedSince notice.through) →
    (strict → removed = true →
      ¬ Since (· = .sent notice) (Record.Repeats notice) c.history) →
    Move strict unit c { c with
      wakeup := if removed then none else c.wakeup
      history := .published (.wakeup unit (some failure)) ::
        .outcome notice (some e) removed :: c.history }
  | tell {c : Channel} (record : Record) : c.Foreign unit record →
    Move strict unit c (c.record record)

end ProgressiveReviewer.Wakeups
