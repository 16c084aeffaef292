import ProgressiveReviewer.Library.Keyed
import ProgressiveReviewer.Library.Failing
import ProgressiveReviewer.Explore.Source
import Mathlib.Data.Finset.Insert
import Mathlib.Data.String.Basic

/-! Review conversations and their one document (`review-threads/src/lib.rs`, `message.rs`,
`post.rs`, `attention.rs`, `round.rs`). Of the anchor of a thread on code only the paths are
kept; counts and the sources' storage form are left out. -/

namespace ProgressiveReviewer.Threads

open Library Explore

abbrev ThreadId := String

abbrev MessageId := String

abbrev ReviewUnit := String

inductive Author where
  | reviewer
  | agent
  deriving DecidableEq, Repr

/-- Where in its round the reviewer wrote a message. -/
inductive AskedUnder where
  | question (question : String) (version : Nat) (number : Option Nat)
  | design
  | conclusion (conclusion : String)
  deriving DecidableEq, Repr

structure Message where
  id : MessageId
  author : Author
  text : String
  inReplyTo : Option MessageId := none
  askedUnder : Option AskedUnder := none
  quote : Option String := none
  postedAtMs : Option Nat := none
  postedFromTab : Option String := none
  sequence : Nat := 0
  deriving DecidableEq, Repr

/-- Whether another message posts the same; the review stamps the time of posting. -/
def Message.sameContent (message other : Message) : Bool :=
  message.id = other.id && message.author = other.author && message.text = other.text &&
    message.inReplyTo = other.inReplyTo && message.askedUnder = other.askedUnder &&
    message.quote = other.quote

structure DiffRangeAnchor where
  oldPath : Option String
  newPath : Option String
  deriving DecidableEq, Repr

structure ThreadSource where
  anchor : DiffRangeAnchor
  excerpt : String
  deriving DecidableEq, Repr

/-- A code selection, or one Explore round. -/
inductive ThreadSubject where
  | round (round : String)
  | code (source : ThreadSource)
  deriving DecidableEq, Repr

inductive Resolution where
  | «open»
  | resolved
  deriving DecidableEq, Repr

structure ReviewThread where
  id : ThreadId
  subject : ThreadSubject
  messages : List Message
  resolution : Resolution
  seenReplyThrough : Nat
  seenReplies : Finset MessageId
  deriving DecidableEq

structure ReviewThreads where
  reviewUnit : ReviewUnit
  threads : List ReviewThread
  sequence : Nat
  answered : SortedMap ThreadId Nat
  deriving DecidableEq

structure Post where
  threadId : ThreadId
  message : Message
  /-- What the thread discusses, for a post that may start it. -/
  subject : Option ThreadSubject
  deriving DecidableEq, Repr

/-- The review pane of one tab, with the last comment that each Retry in it covered. -/
structure Recipient where
  tab : String
  retried : SortedMap ThreadId Nat

def maxSequence : Nat := 2 ^ 64 - 1

/-- The next sequence, when 64 bits hold it. -/
def checkedAdd (sequence : Nat) : Except String Nat :=
  if sequence < maxSequence then .ok (sequence + 1) else .error "Too many messages"

namespace ReviewThread

variable (thread : ReviewThread)

def isRound : Bool :=
  match thread.subject with
  | .round _ => true
  | .code _ => false

def lastComment : Option Message := thread.messages.reverse.find? (·.author = .reviewer)

/-- A reviewer's message reopens a round conversation. -/
def receive (message : Message) : ReviewThread :=
  { thread with
    resolution :=
      if message.author = .reviewer ∧ thread.isRound then .open else thread.resolution
    messages := thread.messages ++ [message] }

def hasCommentsAfter (sequence : Nat) : Bool :=
  thread.messages.any fun message => message.author = .reviewer && sequence < message.sequence

/-- Whether an agent reply took up a comment: one that names it or a later message, or one
that names none and was posted after it. -/
def isAnswered (comment : Message) : Bool :=
  thread.messages.any fun message =>
    message.author = .agent &&
      match message.inReplyTo with
      | some id => thread.messages.any fun covered =>
          covered.id = id && comment.sequence ≤ covered.sequence
      | none => comment.sequence < message.sequence

def isWaiting : Bool := thread.lastComment.any fun comment => !thread.isAnswered comment

def unread (message : Message) : Bool :=
  message.author = .agent && thread.seenReplyThrough < message.sequence &&
    message.id ∉ thread.seenReplies

def unreadReplies : List Message := thread.messages.filter thread.unread

def hasUnreadReply (id : MessageId) : Bool := thread.unreadReplies.any (·.id = id)

/-- Mark one reply as read, when it is an unread one of the thread. -/
def markReplyRead (id : MessageId) : ReviewThread :=
  if thread.hasUnreadReply id then { thread with seenReplies := insert id thread.seenReplies }
  else thread

end ReviewThread

namespace ReviewThreads

variable (book : ReviewThreads)

def new (reviewUnit : ReviewUnit) : ReviewThreads := ⟨reviewUnit, [], 0, .empty⟩

def messages : List Message := book.threads.flatMap ReviewThread.messages

def thread (id : ThreadId) : Option ReviewThread := Keyed.find ReviewThread.id id book.threads

def threadForMessage (id : MessageId) : Option ReviewThread :=
  book.threads.find? fun thread => thread.messages.any (·.id = id)

def message (id : MessageId) : Option Message :=
  (book.threadForMessage id).bind fun thread => thread.messages.find? (·.id = id)

def answeredThrough (id : ThreadId) : Nat := (book.answered.lookup id).getD 0

def pending (thread : ReviewThread) : Bool :=
  thread.resolution = .open && thread.isWaiting &&
    thread.hasCommentsAfter (book.answeredThrough thread.id)

def newMessages : List ReviewThread := book.threads.filter book.pending

/-- Whether a thread holds an unanswered comment that a recipient brings to its agent: one its
tab posted, or one that a Retry in its tab covered. -/
def pendingFor (recipient : Recipient) (thread : ReviewThread) : Bool :=
  book.pending thread &&
    thread.messages.any fun message =>
      message.author = .reviewer && book.answeredThrough thread.id < message.sequence &&
        !thread.isAnswered message &&
        (message.sequence ≤ (recipient.retried.lookup thread.id).getD 0 ||
          message.postedFromTab = some recipient.tab)

def newMessagesFor (recipient : Recipient) : List ReviewThread :=
  book.threads.filter (book.pendingFor recipient)

def pendingCommentSequenceFor (recipient : Recipient) : Option Nat :=
  (((book.newMessagesFor recipient).filterMap ReviewThread.lastComment).map
    Message.sequence).max?

def changeThread (id : ThreadId) (f : ReviewThread → ReviewThread) : ReviewThreads :=
  { book with threads := Keyed.change ReviewThread.id id f book.threads }

/-- Put a new message in its thread, which it may start. -/
def append (post : Post) (now : Nat) : EStateM.Result String ReviewThreads MessageId :=
  match checkedAdd book.sequence with
  | .error e => .error e book
  | .ok next =>
    let message := { post.message with sequence := next, postedAtMs := some now }
    match post.subject, book.thread post.threadId with
    -- A round's conversation is one thread, which its first message starts.
    | some (.round round), some thread =>
      if thread.subject ≠ .round round then
        .error "This review thread belongs to another subject" book
      else
        .ok message.id { book.changeThread post.threadId (·.receive message) with sequence := next }
    | some (.code _), some _ => .error "This review thread already exists" book
    | some subject, none =>
      .ok message.id { book with
        threads := book.threads ++ [⟨post.threadId, subject, [message], .open, 0, ∅⟩]
        sequence := next }
    | none, some _ =>
      .ok message.id { book.changeThread post.threadId (·.receive message) with sequence := next }
    | none, none => .error "The review thread no longer exists" book

/-- Apply one post. Repeating the same post cannot duplicate it. -/
def post (post : Post) (now : Nat) : EStateM.Result String ReviewThreads MessageId :=
  match book.message post.message.id with
  | some existing =>
    if existing.sameContent post.message ∧
        (book.threadForMessage existing.id).map ReviewThread.id = some post.threadId then
      .ok existing.id book
    else .error "This message identity is already used by a different post" book
  | none =>
    if isBlank post.message.text then .error "A message cannot be empty" book
    else book.append post now

/-- The comment that an answer names. -/
def namedComment (post : Post) : Option Message :=
  (book.thread post.threadId).bind fun thread => thread.messages.find? fun message =>
    some message.id = post.message.inReplyTo && message.author = .reviewer

/-- Append an answer and acknowledge what it names in the same update. -/
def answer (post : Post) (now : Nat) : EStateM.Result String ReviewThreads MessageId :=
  if post.message.author ≠ .agent then
    .error "Only an agent reply can acknowledge comments" book
  else
    match book.namedComment post with
    | none => .error "in_reply_to must identify a reviewer comment in this thread" book
    | some comment =>
      match book.post post now with
      | .error e book => .error e book
      | .ok id book =>
        .ok id { book with
          answered := book.answered.insert post.threadId
            (max (book.answeredThrough post.threadId) comment.sequence) }

def setResolution (id : ThreadId) (resolution : Resolution) :
    EStateM.Result String ReviewThreads Unit :=
  match book.thread id with
  | none => .error "The review thread no longer exists" book
  | some _ => .ok () (book.changeThread id ({ · with resolution := resolution }))

/-- Acknowledge the displayed replies; one that arrives later stays unread. -/
def markRead (id : ThreadId) (through : Nat) : EStateM.Result String ReviewThreads Unit :=
  match book.thread id with
  | none => .error "The review thread no longer exists" book
  | some _ => .ok () (book.changeThread id fun thread =>
      { thread with seenReplyThrough := max thread.seenReplyThrough (min through book.sequence) })

def markRepliesRead (ids : List MessageId) : ReviewThreads :=
  { book with threads := book.threads.map fun thread => ids.foldl ReviewThread.markReplyRead thread }

end ReviewThreads

end ProgressiveReviewer.Threads
