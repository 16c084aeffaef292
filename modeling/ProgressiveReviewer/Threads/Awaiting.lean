import ProgressiveReviewer.Threads.Answering

/-! What of a document waits for one recipient (`review-threads/src/lib.rs`), and what is left of
it when the document changes. -/

namespace ProgressiveReviewer.Threads

open Library

theorem ReviewThread.isAnswered_mono {thread changed : ReviewThread} {comment : Message}
    (inside : thread.messages ⊆ changed.messages) (taken : thread.isAnswered comment = true) :
    changed.isAnswered comment = true := by
  obtain ⟨reply, mem, agent, covers⟩ := ReviewThread.isAnswered_iff.mp taken
  refine ReviewThread.isAnswered_iff.mpr ⟨reply, inside mem, agent, covers.imp_left ?_⟩
  exact fun ⟨covered, mem, rest⟩ => ⟨covered, inside mem, rest⟩

namespace ReviewThreads

section

variable (book : ReviewThreads)

def hasNewMessagesFor (recipient : Recipient) : Bool := book.threads.any (book.pendingFor recipient)

/-- Whether a thread has something to bring to the agent again. -/
def retry (id : ThreadId) : Except String Unit :=
  match book.thread id with
  | none => .error "The review thread no longer exists"
  | some thread =>
    if book.pending thread then .ok ()
    else .error "This thread has no unanswered, unresolved comments"

/-- Apply a post, and say whether its message is new. -/
def postNew (post : Post) (now : Nat) : EStateM.Result String ReviewThreads Bool :=
  match book.post post now with
  | .error e book => .error e book
  | .ok _ after => .ok (book.message post.message.id).isNone after

/-- Whether a comment is one that a recipient brings to its agent. -/
def commentFor (recipient : Recipient) (thread : ReviewThread) (comment : Message) : Bool :=
  book.commentPending thread comment &&
    (comment.sequence ≤ (recipient.retried.lookup thread.id).getD 0 ||
      comment.postedFromTab = some recipient.tab)

/-- A comment that no reply took up, in an open thread or not. -/
structure Unanswered (thread : ReviewThread) (comment : Message) : Prop where
  held : thread ∈ book.threads
  mem : comment ∈ thread.messages
  reviewer : comment.author = .reviewer
  position : book.answeredThrough thread.id < comment.sequence
  free : thread.isAnswered comment = false

end

variable {book after : ReviewThreads} {recipient : Recipient} {thread changed : ReviewThread}
  {comment last : Message} {sequence : Nat}

theorem pendingFor_iff :
    book.pendingFor recipient thread = true ↔ ∃ comment, book.commentFor recipient thread comment := by
  simp only [pendingFor, commentFor, commentPending, Bool.and_eq_true, List.any_eq_true,
    decide_eq_true_eq, Bool.not_eq_true']
  constructor
  · rintro ⟨pends, comment, mem, ⟨⟨reviewer, position⟩, free⟩, own⟩
    exact ⟨comment, ⟨⟨⟨⟨pends, mem⟩, reviewer⟩, position⟩, free⟩, own⟩
  · rintro ⟨comment, ⟨⟨⟨⟨pends, mem⟩, reviewer⟩, position⟩, free⟩, own⟩
    exact ⟨pends, comment, mem, ⟨⟨reviewer, position⟩, free⟩, own⟩

theorem unanswered_of_commentFor (mem : thread ∈ book.threads)
    (waits : book.commentFor recipient thread comment = true) :
    book.Unanswered thread comment ∧ thread.resolution = .open := by
  obtain ⟨pends, inside, reviewer, position, free⟩ :=
    commentPending_iff.mp (Bool.and_eq_true_iff.mp waits).1
  refine ⟨⟨mem, inside, reviewer, position, free⟩, ?_⟩
  simp only [pending, Bool.and_eq_true, decide_eq_true_eq] at pends
  exact pends.1.1

/-- A comment that no reply took up waits as soon as its thread is open. -/
theorem Unanswered.pending (sound : Sound book) (waits : book.Unanswered thread comment)
    (isOpen : thread.resolution = .open) : book.pending thread = true := by
  obtain ⟨last, held⟩ := ReviewThread.lastComment_isSome waits.mem waits.reviewer
  have later := ReviewThread.le_lastComment (sound.increasing thread waits.held) held waits.mem
    waits.reviewer
  have free : thread.isAnswered last = false := by
    refine Bool.eq_false_iff.mpr fun taken => Bool.eq_false_iff.mp waits.free ?_
    obtain ⟨reply, takes⟩ := ReviewThread.isAnswered_iff.mp taken
    exact ReviewThread.isAnswered_iff.mpr ⟨reply, ReviewThread.takesUp_of_le later takes⟩
  simp only [ReviewThreads.pending, Bool.and_eq_true, decide_eq_true_eq]
  exact ⟨⟨isOpen, ReviewThread.isWaiting_iff.mpr ⟨last, held, free⟩⟩,
    ReviewThread.hasCommentsAfter_iff.mpr ⟨comment, waits.mem, waits.reviewer, waits.position⟩⟩

theorem Unanswered.commentFor (sound : Sound book) (waits : book.Unanswered thread comment)
    (isOpen : thread.resolution = .open)
    (own : comment.sequence ≤ (recipient.retried.lookup thread.id).getD 0 ∨
      comment.postedFromTab = some recipient.tab) :
    book.commentFor recipient thread comment = true := by
  rw [ReviewThreads.commentFor, Bool.and_eq_true_iff, Bool.or_eq_true_iff, decide_eq_true_eq,
    decide_eq_true_eq]
  exact ⟨commentPending_iff.mpr ⟨waits.pending sound isOpen, waits.mem, waits.reviewer,
    waits.position, waits.free⟩, own⟩

theorem hasNewMessagesFor_iff : book.hasNewMessagesFor recipient = true ↔
    ∃ thread ∈ book.threads, book.pendingFor recipient thread = true := by
  rw [hasNewMessagesFor, List.any_eq_true]

/-- The last comment of a thread that waits. -/
theorem last_of_pendingFor (sound : Sound book) (mem : thread ∈ book.threads)
    (waits : book.commentFor recipient thread comment = true) :
    ∃ last, thread.lastComment = some last ∧ comment.sequence ≤ last.sequence := by
  obtain ⟨unanswered, -⟩ := unanswered_of_commentFor mem waits
  obtain ⟨last, held⟩ := ReviewThread.lastComment_isSome unanswered.mem unanswered.reviewer
  exact ⟨last, held, ReviewThread.le_lastComment (sound.increasing thread mem) held unanswered.mem
    unanswered.reviewer⟩

theorem lasts_iff {last : Nat} :
    last ∈ ((book.newMessagesFor recipient).filterMap ReviewThread.lastComment).map Message.sequence ↔
      ∃ thread ∈ book.threads, book.pendingFor recipient thread = true ∧
        ∃ comment, thread.lastComment = some comment ∧ comment.sequence = last := by
  simp only [List.mem_map, List.mem_filterMap, newMessagesFor, List.mem_filter]
  constructor
  · rintro ⟨comment, ⟨thread, ⟨mem, waits⟩, held⟩, same⟩
    exact ⟨thread, mem, waits, comment, held, same⟩
  · rintro ⟨thread, mem, waits, comment, held, same⟩
    exact ⟨comment, ⟨thread, ⟨mem, waits⟩, held⟩, same⟩

/-- The sequence told is that of the last comment of a thread that waits, and the latest one. -/
theorem told_iff : book.pendingCommentSequenceFor recipient = some sequence ↔
    (∃ thread ∈ book.threads, book.pendingFor recipient thread = true ∧
      ∃ comment, thread.lastComment = some comment ∧ comment.sequence = sequence) ∧
    ∀ thread ∈ book.threads, book.pendingFor recipient thread = true →
      ∀ comment, thread.lastComment = some comment → comment.sequence ≤ sequence := by
  rw [pendingCommentSequenceFor, List.max?_eq_some_iff, lasts_iff]
  refine and_congr_right fun _ => ⟨fun all thread mem waits comment held => ?_, fun all last mem => ?_⟩
  · exact all comment.sequence (lasts_iff.mpr ⟨thread, mem, waits, comment, held, rfl⟩)
  · obtain ⟨thread, inside, waits, comment, held, rfl⟩ := lasts_iff.mp mem
    exact all thread inside waits comment held

theorem told_isSome (sound : Sound book) :
    (book.pendingCommentSequenceFor recipient).isSome = book.hasNewMessagesFor recipient := by
  rw [Bool.eq_iff_iff, hasNewMessagesFor_iff]
  constructor
  · intro told
    obtain ⟨sequence, told⟩ := Option.isSome_iff_exists.mp told
    obtain ⟨⟨thread, mem, waits, -⟩, -⟩ := told_iff.mp told
    exact ⟨thread, mem, waits⟩
  · rintro ⟨thread, mem, waits⟩
    obtain ⟨comment, waiting⟩ := pendingFor_iff.mp waits
    obtain ⟨last, held, -⟩ := last_of_pendingFor sound mem waiting
    rw [pendingCommentSequenceFor, List.isSome_max?_iff]
    exact List.ne_nil_of_mem (lasts_iff.mpr ⟨thread, mem, waits, last, held, rfl⟩)

theorem le_told (sound : Sound book)
    (told : book.pendingCommentSequenceFor recipient = some sequence) (mem : thread ∈ book.threads)
    (waits : book.commentFor recipient thread comment = true) : comment.sequence ≤ sequence := by
  obtain ⟨last, held, later⟩ := last_of_pendingFor sound mem waits
  exact later.trans ((told_iff.mp told).2 thread mem (pendingFor_iff.mpr ⟨comment, waits⟩) last held)

theorem told_bounds (sound : Sound book)
    (told : book.pendingCommentSequenceFor recipient = some sequence) :
    0 < sequence ∧ sequence ≤ book.sequence := by
  obtain ⟨⟨thread, mem, -, comment, held, rfl⟩, -⟩ := told_iff.mp told
  exact sound.bounded comment
    (mem_messages.mpr ⟨thread, mem, (ReviewThread.lastComment_eq_some held).1⟩)

/-! ## Changes -/

/-- What a change leaves of the messages: each thread keeps its own and gets later ones. -/
structure Extends (book after : ReviewThreads) : Prop where
  sound : Sound after
  reviewUnit : after.reviewUnit = book.reviewUnit
  sequence : book.sequence ≤ after.sequence
  answered : ∀ id, book.answeredThrough id ≤ after.answeredThrough id
  threads : ∀ changed ∈ after.threads,
    (∀ message ∈ changed.messages, book.sequence < message.sequence) ∨
      ∃ thread ∈ book.threads, thread.id = changed.id ∧ ∃ extra,
        changed.messages = thread.messages ++ extra ∧
          ∀ message ∈ extra, book.sequence < message.sequence

/-- Only a new comment opens a thread. -/
def KeepsShut (book after : ReviewThreads) : Prop :=
  ∀ changed ∈ after.threads, changed.resolution = .open →
    ∀ thread ∈ book.threads, thread.id = changed.id → thread.resolution = .open ∨
      ∃ message ∈ changed.messages, message.author = .reviewer ∧ book.sequence < message.sequence

namespace Extends

variable (ext : Extends book after)
include ext

/-- A comment that was taken up stays so. -/
theorem unanswered (waits : after.Unanswered changed comment) :
    book.sequence < comment.sequence ∨
      ∃ thread, thread.id = changed.id ∧ book.Unanswered thread comment := by
  rcases ext.threads changed waits.held with new | ⟨thread, mem, same, extra, messages, new⟩
  · exact .inl (new comment waits.mem)
  · rcases List.mem_append.mp (messages ▸ waits.mem) with old | added
    · refine .inr ⟨thread, same, mem, old, waits.reviewer, ?_, ?_⟩
      · rw [same]
        exact (ext.answered changed.id).trans_lt waits.position
      · refine Bool.eq_false_iff.mpr fun taken => Bool.eq_false_iff.mp waits.free ?_
        exact ReviewThread.isAnswered_mono (messages ▸ List.subset_append_left _ _) taken
    · exact .inl (new comment added)

/-- A thread that waits has a new comment, or waited before. -/
theorem pendingFor (sound : Sound book) (shut : KeepsShut book after)
    (mem : changed ∈ after.threads) (waits : after.pendingFor recipient changed = true)
    (held : changed.lastComment = some last) :
    book.sequence < last.sequence ∨ ∃ thread ∈ book.threads, thread.id = changed.id ∧
      book.pendingFor recipient thread = true ∧ thread.lastComment = some last := by
  obtain ⟨comment, waiting⟩ := pendingFor_iff.mp waits
  obtain ⟨unanswered, isOpen⟩ := unanswered_of_commentFor mem waiting
  have latest : ∀ message ∈ changed.messages, message.author = .reviewer →
      message.sequence ≤ last.sequence := fun _ =>
    ReviewThread.le_lastComment (ext.sound.increasing changed mem) held
  rcases ext.unanswered unanswered with new | ⟨thread, same, before⟩
  · exact .inl (new.trans_le (latest comment unanswered.mem unanswered.reviewer))
  rcases shut changed mem isOpen thread before.held same with isOpen | ⟨message, inside, reviewer, new⟩
  · rcases ext.threads changed mem with new | ⟨kept, memKept, sameKept, extra, messages, new⟩
    · exact .inl (new last (ReviewThread.lastComment_eq_some held).1)
    obtain rfl : kept = thread := Option.some.inj ((sound.thread_self memKept).symm.trans
      ((congrArg book.thread (sameKept.trans same.symm)).trans (sound.thread_self before.held)))
    by_cases comments : ∃ message ∈ extra, message.author = .reviewer
    · obtain ⟨message, added, reviewer⟩ := comments
      exact .inl ((new message added).trans_le
        (latest message (messages ▸ List.mem_append_right _ added) reviewer))
    · have agents : ∀ message ∈ extra, message.author = .agent := fun message added => by
        cases author : message.author with
        | agent => rfl
        | reviewer => exact absurd ⟨message, added, author⟩ comments
      refine .inr ⟨kept, memKept, sameKept, pendingFor_iff.mpr ⟨comment, ?_⟩, ?_⟩
      · refine before.commentFor sound isOpen ?_
        rw [ReviewThreads.commentFor, Bool.and_eq_true_iff, Bool.or_eq_true_iff, decide_eq_true_eq,
          decide_eq_true_eq] at waiting
        exact same ▸ waiting.2
      · exact (ReviewThread.lastComment_append messages agents).symm.trans held
  · exact .inl (new.trans_le (latest message inside reviewer))

/-- Without a new comment, what waits waited before. -/
theorem commentFor (sound : Sound book) (shut : KeepsShut book after)
    (quiet : ∀ message ∈ after.messages, book.sequence < message.sequence → message.author = .agent)
    (mem : changed ∈ after.threads) (waits : after.commentFor recipient changed comment = true) :
    ∃ thread ∈ book.threads, thread.id = changed.id ∧
      book.commentFor recipient thread comment = true := by
  obtain ⟨unanswered, isOpen⟩ := unanswered_of_commentFor mem waits
  have agent : ∀ message ∈ changed.messages, message.author = .reviewer →
      ¬ book.sequence < message.sequence := fun message inside reviewer new => by
    have := quiet message (mem_messages.mpr ⟨changed, mem, inside⟩) new
    exact absurd (reviewer.symm.trans this) nofun
  obtain ⟨thread, same, before⟩ := (ext.unanswered unanswered).resolve_left
    (agent comment unanswered.mem unanswered.reviewer)
  have isOpen := (shut changed mem isOpen thread before.held same).resolve_right
    fun ⟨message, inside, reviewer, new⟩ => agent message inside reviewer new
  refine ⟨thread, before.held, same, before.commentFor sound isOpen ?_⟩
  rw [ReviewThreads.commentFor, Bool.and_eq_true_iff, Bool.or_eq_true_iff, decide_eq_true_eq,
    decide_eq_true_eq] at waits
  exact same ▸ waits.2

end Extends

theorem Extends.refl (sound : Sound book) : Extends book book where
  sound := sound
  reviewUnit := rfl
  sequence := le_rfl
  answered _ := le_rfl
  threads changed mem := .inr ⟨changed, mem, rfl, [], (List.append_nil _).symm, nofun⟩

theorem keepsShut_refl (sound : Sound book) : KeepsShut book book :=
  fun changed mem isOpen thread inside same => .inl <| by
    have held := sound.thread_self inside
    rw [same, sound.thread_self mem] at held
    exact Option.some.inj held ▸ isOpen

section Posts

variable {post : Post} {now : Nat} (sound : Sound book) (posted : Posted book post now after)
  (fresh : book.message post.message.id = none)
include sound posted fresh

/-- A thread that received a new message, or one as it was. -/
theorem Posted.cases (mem : changed ∈ after.threads) : book.thread changed.id = some changed ∨
    (∃ thread, book.thread changed.id = some thread ∧
      changed = thread.receive (book.stamped post now)) ∨
    book.thread changed.id = none ∧ changed.messages = [book.stamped post now] := by
  have view := posted.thread changed.id
  rw [(sound.posted posted fresh).thread_self mem] at view
  split_ifs at view
  · cases held : book.thread changed.id with
    | some thread =>
      rw [held] at view
      exact .inr (.inl ⟨thread, rfl, Option.some.inj view⟩)
    | none =>
      rw [held] at view
      obtain ⟨subject, -, same⟩ := Option.map_eq_some_iff.mp view.symm
      exact .inr (.inr ⟨rfl, same ▸ rfl⟩)
  · exact .inl view.symm

theorem Extends.of_posted : Extends book after where
  sound := sound.posted posted fresh
  reviewUnit := posted.reviewUnit
  sequence := by rw [posted.sequence]; omega
  answered id := by rw [answeredThrough, answeredThrough, posted.answered]
  threads changed mem := by
    have late : book.sequence < (book.stamped post now).sequence := Nat.lt_succ_self _
    rcases posted.cases sound fresh mem with held | ⟨thread, held, received⟩ | ⟨-, messages⟩
    · exact .inr ⟨changed, mem_of_thread held, rfl, [], (List.append_nil _).symm, List.forall_mem_nil _⟩
    · refine .inr ⟨thread, mem_of_thread held, id_of_thread held, [book.stamped post now],
        congrArg ReviewThread.messages received, fun message inside => ?_⟩
      exact List.mem_singleton.mp inside ▸ late
    · refine .inl fun message inside => ?_
      exact List.mem_singleton.mp (messages ▸ inside) ▸ late

theorem keepsShut_posted : KeepsShut book after := by
  intro changed mem isOpen thread inside same
  have self := sound.thread_self inside
  rw [same] at self
  rcases posted.cases sound fresh mem with held | ⟨kept, held, received⟩ | ⟨held, -⟩
  · exact .inl (Option.some.inj (held.symm.trans self) ▸ isOpen)
  · obtain rfl := Option.some.inj (held.symm.trans self)
    by_cases reviewer : post.message.author = .reviewer
    · refine .inr ⟨book.stamped post now, ?_, reviewer, Nat.lt_succ_self _⟩
      exact received ▸ List.mem_append_right _ List.mem_cons_self
    · have resolution := congrArg ReviewThread.resolution received
      rw [ReviewThread.receive, if_neg fun both => reviewer both.1] at resolution
      exact .inl (resolution.symm.trans isOpen)
  · cases held.symm.trans self

end Posts

theorem Extends.answeredInsert {id : ThreadId} {position : Nat} (ext : Extends book after)
    (later : after.answeredThrough id ≤ position) (within : position ≤ after.sequence) :
    Extends book { after with answered := after.answered.insert id position } where
  sound := ext.sound.answered within
  reviewUnit := ext.reviewUnit
  sequence := ext.sequence
  answered other := by
    refine (ext.answered other).trans ?_
    simp only [answeredThrough, SortedMap.lookup_insert]
    split_ifs with same
    · exact same ▸ later
    · exact le_rfl
  threads := ext.threads

/-- Nothing but an agent's message came in. -/
def Quiet (book after : ReviewThreads) : Prop :=
  Extends book after ∧ KeepsShut book after ∧
    ∀ message ∈ after.messages, book.sequence < message.sequence → message.author = .agent

theorem quiet_refl (sound : Sound book) : Quiet book book :=
  ⟨.refl sound, keepsShut_refl sound, fun message mem late =>
    absurd (sound.bounded message mem).2 late.not_ge⟩

theorem quiet_answer (sound : Sound book) {post : Post} {now : Nat} {id : MessageId}
    (done : book.answer post now = .ok id after) : Quiet book after := by
  rcases book.answer_cases post now with ⟨_, failed⟩ | ⟨comment, id, grown, agent, named, posting, ok⟩
  · cases failed.symm.trans done
  cases ok.symm.trans done
  have position : comment.sequence ≤ book.sequence := (sound.bounded comment
    (mem_messages_of_messagesOf (namedComment_eq_some named).1)).2
  rcases book.post_cases post now with ⟨_, failed⟩ | ⟨_, _, _, _, again⟩ | ⟨_, fresh, added, posted, -⟩
  · cases failed.symm.trans posting
  · cases again.symm.trans posting
    obtain ⟨-, shut, old⟩ := quiet_refl sound
    exact ⟨(Extends.refl sound).answeredInsert (le_max_left _ _)
      (max_le (sound.answeredThrough_le _) position), shut, old⟩
  · cases added.symm.trans posting
    have same : grown.answeredThrough post.threadId = book.answeredThrough post.threadId :=
      congrArg (fun answered => (answered.lookup post.threadId).getD 0) posted.answered
    have ext := Extends.of_posted sound posted fresh
    have shut : KeepsShut book grown := keepsShut_posted sound posted fresh
    refine ⟨ext.answeredInsert (same ▸ le_max_left _ _) (max_le ?_ (position.trans ext.sequence)),
      shut, fun message mem late => ?_⟩
    · exact ext.sound.answeredThrough_le _
    · rcases List.mem_append.mp (posted.messages.subset mem) with old | new
      · exact absurd (sound.bounded message old).2 late.not_ge
      · exact List.mem_singleton.mp new ▸ agent

/-- Attention changes no message. -/
theorem Extends.attended (sound : Sound book) (attended : Attended book after) :
    Extends book after where
  sound := sound.attended attended
  reviewUnit := attended.reviewUnit
  sequence := attended.sequence.ge
  answered id := by rw [answeredThrough, answeredThrough, attended.answered]
  threads changed mem := by
    obtain ⟨thread, inside, related⟩ := attended.each mem
    exact .inr ⟨thread, inside, related.id.symm, [],
      related.messages.trans (List.append_nil _).symm, List.forall_mem_nil _⟩

theorem quiet_attended (sound : Sound book) (attended : Attended book after)
    (shut : KeepsShut book after) : Quiet book after :=
  ⟨.attended sound attended, shut, fun message mem late =>
    absurd (sound.bounded message (attended.messages ▸ mem)).2 late.not_ge⟩

theorem keepsShut_changeThread (sound : Sound book) {id : ThreadId} {f : ReviewThread → ReviewThread}
    (ids : ∀ thread, (f thread).id = thread.id)
    (shut : ∀ thread, (f thread).resolution = .open → thread.resolution = .open) :
    KeepsShut book (book.changeThread id f) := by
  intro changed mem isOpen thread inside same
  have held := sound.thread_self inside
  rcases Keyed.mem_change mem with kept | ⟨found, foundIn, rfl⟩
  · rw [same, sound.thread_self kept] at held
    exact .inl (Option.some.inj held ▸ isOpen)
  · have there := sound.thread_self (Keyed.mem_of_find foundIn)
    rw [same, ids, there] at held
    exact .inl (shut thread (Option.some.inj held ▸ isOpen))

theorem quiet_markRead (sound : Sound book) {id : ThreadId} {through : Nat}
    (done : book.markRead id through = .ok () after) : Quiet book after := by
  rcases book.markRead_cases id through with ⟨_, failed⟩ | ⟨_, ok, attended⟩
  · cases failed.symm.trans done
  cases ok.symm.trans done
  refine quiet_attended sound attended ?_
  unfold markRead at ok
  split at ok
  · cases ok
  · cases ok
    exact keepsShut_changeThread sound (fun _ => rfl) fun _ isOpen => isOpen

theorem quiet_markRepliesRead (sound : Sound book) (ids : List MessageId) :
    Quiet book (book.markRepliesRead ids) := by
  refine quiet_attended sound (attended_markRepliesRead ids) ?_
  have resolution : ∀ (ids : List MessageId) (thread : ReviewThread),
      (ids.foldl ReviewThread.markReplyRead thread).resolution = thread.resolution := by
    intro ids
    induction ids with
    | nil => exact fun _ => rfl
    | cons id ids ih =>
      refine fun thread => (ih _).trans ?_
      unfold ReviewThread.markReplyRead
      split_ifs <;> rfl
  intro changed mem isOpen thread inside same
  obtain ⟨kept, memKept, rfl⟩ := List.mem_map.mp mem
  have held := sound.thread_self inside
  have related : Attends 0 kept (ids.foldl ReviewThread.markReplyRead kept) :=
    attends_markRepliesRead ids
  rw [same, related.id, sound.thread_self memKept] at held
  rw [resolution] at isOpen
  exact .inl (Option.some.inj held ▸ isOpen)

theorem setResolution_ok {id : ThreadId} {resolution : Resolution}
    (done : book.setResolution id resolution = .ok () after) :
    Attended book after ∧
      after = book.changeThread id ({ · with resolution := resolution }) := by
  rcases book.setResolution_cases id resolution with ⟨_, failed⟩ | ⟨_, ok, attended⟩
  · cases failed.symm.trans done
  cases ok.symm.trans done
  refine ⟨attended, ?_⟩
  unfold setResolution at ok
  split at ok <;> cases ok
  rfl

theorem quiet_resolved (sound : Sound book) {id : ThreadId}
    (done : book.setResolution id .resolved = .ok () after) : Quiet book after := by
  obtain ⟨attended, rfl⟩ := setResolution_ok done
  exact quiet_attended sound attended (keepsShut_changeThread sound (fun _ => rfl) nofun)

/-- A post brings in a new message, or was there. -/
theorem postNew_cases (sound : Sound book) {post : Post} {now : Nat} {new : Bool}
    (done : book.postNew post now = .ok new after) : Extends book after ∧ KeepsShut book after ∧
      (∀ message ∈ after.messages, book.sequence < message.sequence →
        new = true ∧ message.id = post.message.id) ∧
      (new = true → ∀ message ∈ book.messages, message.id ≠ post.message.id) := by
  unfold postNew at done
  rcases book.post_cases post now with ⟨_, failed⟩ | ⟨existing, there, _, _, again⟩ |
    ⟨_, fresh, added, posted, -⟩
  · rw [failed] at done
    cases done
  · rw [again] at done
    cases done
    refine ⟨.refl sound, keepsShut_refl sound, fun message mem late => ?_, fun new => ?_⟩
    · exact absurd (sound.bounded message mem).2 late.not_ge
    · rw [there] at new
      cases new
  · rw [added] at done
    cases done
    refine ⟨.of_posted sound posted fresh, keepsShut_posted sound posted fresh,
      fun message mem late => ?_, fun _ message mem same => ?_⟩
    · rcases List.mem_append.mp (posted.messages.subset mem) with old | new
      · exact absurd (sound.bounded message old).2 late.not_ge
      · exact ⟨by rw [fresh]; rfl, List.mem_singleton.mp new ▸ rfl⟩
    · exact message_eq_none.mp fresh (same ▸ List.mem_map_of_mem mem)

end ReviewThreads

end ProgressiveReviewer.Threads
