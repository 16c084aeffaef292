import ProgressiveReviewer.Threads.Sequences

/-! What waits for an answer: the answered positions agree with the replies that acknowledge
the comments. -/

namespace ProgressiveReviewer.Threads

open Library

namespace ReviewThread

variable {thread : ReviewThread} {comment reply : Message}

/-- Whether an agent reply of a thread took a comment up. -/
def TakesUp (thread : ReviewThread) (reply comment : Message) : Prop :=
  reply ∈ thread.messages ∧ reply.author = .agent ∧
    ((∃ covered ∈ thread.messages, reply.inReplyTo = some covered.id ∧
      comment.sequence ≤ covered.sequence) ∨
    reply.inReplyTo = none ∧ comment.sequence < reply.sequence)

theorem isAnswered_iff : thread.isAnswered comment = true ↔ ∃ reply, thread.TakesUp reply comment := by
  simp only [isAnswered, List.any_eq_true, Bool.and_eq_true, decide_eq_true_eq]
  refine exists_congr fun reply => and_congr_right fun _ => and_congr_right fun _ => ?_
  cases named : reply.inReplyTo with
  | none => simp
  | some id =>
    simp only [List.any_eq_true, Bool.and_eq_true, decide_eq_true_eq, Option.some.injEq, reduceCtorEq,
      false_and, or_false]
    exact exists_congr fun covered => and_congr_right fun _ => and_congr_left fun _ => eq_comm

theorem takesUp_of_le {earlier : Message} (before : earlier.sequence ≤ comment.sequence)
    (taken : thread.TakesUp reply comment) : thread.TakesUp reply earlier := by
  refine taken.imp_right (And.imp_right ?_)
  rintro (⟨covered, mem, named, later⟩ | ⟨none, later⟩)
  · exact .inl ⟨covered, mem, named, before.trans later⟩
  · exact .inr ⟨none, before.trans_lt later⟩

theorem lastComment_eq_some (held : thread.lastComment = some comment) :
    comment ∈ thread.messages ∧ comment.author = .reviewer :=
  ⟨List.mem_reverse.mp (List.mem_of_find?_eq_some held), by simpa using List.find?_some held⟩

/-- The last comment is the latest. -/
theorem le_lastComment (increasing : thread.messages.Pairwise fun a b => a.sequence < b.sequence)
    (held : thread.lastComment = some comment) {other : Message} (mem : other ∈ thread.messages)
    (reviewer : other.author = .reviewer) : other.sequence ≤ comment.sequence := by
  obtain ⟨-, before, after, split, none⟩ := List.find?_eq_some_iff_append.mp held
  have split : thread.messages = after.reverse ++ comment :: before.reverse := by
    rw [← List.reverse_inj, split]
    simp
  rw [split] at mem increasing
  rcases List.mem_append.mp mem with mem | mem
  · exact ((List.pairwise_append.mp increasing).2.2 other mem comment List.mem_cons_self).le
  · rcases List.mem_cons.mp mem with rfl | mem
    · exact le_rfl
    · have absent := none other (List.mem_reverse.mp mem)
      simp [reviewer] at absent

theorem lastComment_isSome (mem : comment ∈ thread.messages) (reviewer : comment.author = .reviewer) :
    ∃ last, thread.lastComment = some last := by
  rw [← Option.isSome_iff_exists, lastComment, List.find?_isSome]
  exact ⟨comment, List.mem_reverse.mpr mem, decide_eq_true reviewer⟩

theorem isWaiting_iff : thread.isWaiting = true ↔
    ∃ comment, thread.lastComment = some comment ∧ thread.isAnswered comment = false := by
  unfold isWaiting
  cases thread.lastComment <;> simp

theorem hasCommentsAfter_iff {sequence : Nat} : thread.hasCommentsAfter sequence = true ↔
    ∃ comment ∈ thread.messages, comment.author = .reviewer ∧ sequence < comment.sequence := by
  simp [hasCommentsAfter]

theorem lastComment_append {changed : ReviewThread} {extra : List Message}
    (messages : changed.messages = thread.messages ++ extra)
    (agents : ∀ message ∈ extra, message.author = .agent) :
    changed.lastComment = thread.lastComment := by
  have none : extra.reverse.find? (fun message => message.author = .reviewer) = none := by
    refine List.find?_eq_none.mpr fun message mem => ?_
    rw [agents message (List.mem_reverse.mp mem)]
    exact Bool.false_ne_true
  rw [lastComment, messages, List.reverse_append, List.find?_append, none]
  rfl

/-- A new reply takes up nothing after the comment it names. -/
theorem isAnswered_append {changed : ReviewThread} {other : Message}
    (messages : changed.messages = thread.messages ++ [reply])
    (nodup : (changed.messages.map Message.id).Nodup)
    (names : reply.inReplyTo = some comment.id) (mem : comment ∈ thread.messages)
    (unnamed : ∀ message ∈ thread.messages, message.inReplyTo ≠ some reply.id)
    (past : comment.sequence < other.sequence) (free : thread.isAnswered other = false) :
    changed.isAnswered other = false := by
  refine Bool.eq_false_iff.mpr fun taken => Bool.eq_false_iff.mp free ?_
  obtain ⟨taker, inside, agent, covers⟩ := isAnswered_iff.mp taken
  have memComment : comment ∈ changed.messages := messages ▸ List.mem_append_left _ mem
  rcases List.mem_append.mp (messages ▸ inside) with old | new
  · refine isAnswered_iff.mpr ⟨taker, old, agent, covers.imp_left ?_⟩
    rintro ⟨covered, memCovered, named, later⟩
    refine ⟨covered, (List.mem_append.mp (messages ▸ memCovered)).resolve_right fun same => ?_,
      named, later⟩
    obtain rfl := List.mem_singleton.mp same
    exact unnamed taker old named
  · obtain rfl := List.mem_singleton.mp new
    rcases covers with ⟨covered, memCovered, named, later⟩ | ⟨none, -⟩
    · have same : covered.id = comment.id := (Option.some.inj (names.symm.trans named)).symm
      obtain rfl := List.inj_on_of_nodup_map nodup memCovered memComment same
      exact absurd later past.not_ge
    · rw [names] at none
      cases none

end ReviewThread

namespace ReviewThreads

variable {book other after : ReviewThreads} {numbers : MessageId → Option Nat}
  {thread : ReviewThread}

/-- Every answered position is that of a reviewer comment which an agent reply of the thread
names. -/
def AcknowledgesComments (book : ReviewThreads) : Prop :=
  ∀ id position, book.answered.lookup id = some position →
    ∃ comment ∈ book.messagesOf id, comment.author = .reviewer ∧ comment.sequence = position ∧
      ∃ reply ∈ book.messagesOf id, reply.author = .agent ∧ reply.inReplyTo = some comment.id

/-- An identity names one message: what both documents hold says the same in the same thread. -/
def Agrees (book other : ReviewThreads) : Prop :=
  ∀ thread ∈ other.threads, ∀ message ∈ thread.messages, (book.known message.id).isSome →
    ∃ kept ∈ book.messagesOf thread.id, kept.sameContent message = true

/-- No message that an answered position of the other document covers comes after its comment. -/
def KeepsComments (book other : ReviewThreads) : Prop :=
  ∀ thread ∈ other.threads, ∀ position, other.answered.lookup thread.id = some position →
    ∀ comment ∈ thread.messages, comment.sequence = position →
      ∀ message ∈ thread.messages, message.sequence ≤ position → book.comesBefore message comment

/-- A merge that leaves every answered position on the comment it acknowledges. -/
def KeepsPlace (book other : ReviewThreads) : Prop := Agrees book other ∧ KeepsComments book other

/-- A message of the other document, as the merged one holds it. -/
theorem Merged.counterpart (sound : Sound book) (merged : Merged book other after numbers)
    (agrees : Agrees book other) (held : other.thread thread.id = some thread) {message : Message}
    (mem : message ∈ thread.messages) : ∃ moved ∈ after.messagesOf thread.id,
      moved.id = message.id ∧ moved.author = message.author ∧
        moved.inReplyTo = message.inReplyTo ∧
        moved.sequence = mergedSequence book.known numbers message.id := by
  have memThread := mem_of_thread held
  have memOther : message ∈ other.messages := mem_messages.mpr ⟨thread, memThread, mem⟩
  rw [merged.messagesOf]
  cases known : book.known message.id with
  | some sequence =>
    obtain ⟨kept, memKept, same⟩ := agrees thread memThread message mem (by rw [known]; rfl)
    simp only [Message.sameContent, Bool.and_eq_true, decide_eq_true_eq] at same
    refine ⟨kept, List.mem_append_left _ memKept, same.1.1.1.1.1, same.1.1.1.1.2, same.1.1.2, ?_⟩
    have own := known_of_mem sound.ids (mem_messages_of_messagesOf memKept)
    rw [same.1.1.1.1.1] at own
    exact (merged.mergedSequence_known memOther own).symm
  | none =>
    obtain ⟨sequence, number⟩ := merged.numbers_of_lacking
      (mem_lacking.mpr ⟨memOther, known_eq_none.mp known⟩)
    refine ⟨{ message with sequence }, List.mem_append_right _ ?_, rfl, rfl, rfl,
      (Merged.mergedSequence_new number).symm⟩
    rw [held]
    exact mem_arrived.mpr ⟨message, mem, sequence, number, rfl⟩

namespace AcknowledgesComments

variable (acknowledges : AcknowledgesComments book)
include acknowledges

theorem grow (answered : after.answered = book.answered)
    (messages : ∀ id, book.messagesOf id ⊆ after.messagesOf id) : AcknowledgesComments after := by
  intro id position found
  rw [answered] at found
  obtain ⟨comment, mem, reviewer, same, reply, memReply, rest⟩ := acknowledges id position found
  exact ⟨comment, messages id mem, reviewer, same, reply, messages id memReply, rest⟩

theorem answer {id : ThreadId} {comment reply : Message} (mem : comment ∈ book.messagesOf id)
    (reviewer : comment.author = .reviewer) (memReply : reply ∈ book.messagesOf id)
    (agent : reply.author = .agent) (names : reply.inReplyTo = some comment.id) :
    AcknowledgesComments { book with
      answered := book.answered.insert id (max (book.answeredThrough id) comment.sequence) } := by
  intro other position found
  rw [SortedMap.lookup_insert] at found
  split_ifs at found with same
  · subst same
    obtain rfl := Option.some.inj found
    have here : ∀ position, position = comment.sequence →
        ∃ comment ∈ book.messagesOf id, comment.author = .reviewer ∧ comment.sequence = position ∧
          ∃ reply ∈ book.messagesOf id, reply.author = .agent ∧
            reply.inReplyTo = some comment.id := fun position same =>
      ⟨comment, mem, reviewer, same.symm, reply, memReply, agent, names⟩
    rcases le_total (book.answeredThrough id) comment.sequence with below | above
    · exact here _ (max_eq_right below)
    · rw [max_eq_left above]
      cases held : book.answered.lookup id with
      | none =>
        rw [answeredThrough, held] at above ⊢
        exact here _ (Nat.le_zero.mp above).symm
      | some position =>
        rw [answeredThrough, held]
        exact acknowledges id position held
  · exact acknowledges other position found

theorem merged (sound : Sound book) (otherSound : Sound other)
    (otherAcknowledges : AcknowledgesComments other) (merged : Merged book other after numbers)
    (keeps : KeepsPlace book other) : AcknowledgesComments after := by
  intro id position found
  have kept : ∀ {position}, book.answered.lookup id = some position →
      ∃ comment ∈ after.messagesOf id, comment.author = .reviewer ∧ comment.sequence = position ∧
        ∃ reply ∈ after.messagesOf id, reply.author = .agent ∧
          reply.inReplyTo = some comment.id := by
    intro position held
    obtain ⟨comment, mem, reviewer, same, reply, memReply, rest⟩ := acknowledges id position held
    rw [merged.messagesOf]
    exact ⟨comment, List.mem_append_left _ mem, reviewer, same, reply,
      List.mem_append_left _ memReply, rest⟩
  rw [merged.answered] at found
  split at found
  · next thread translated arriving held =>
    obtain rfl := Option.some.inj found
    obtain rfl := id_of_thread arriving
    obtain ⟨comment, memComment, reviewer, rfl, reply, memReply, agent, names⟩ :=
      otherAcknowledges _ _ held
    rw [messagesOf_some arriving] at memComment memReply
    have memThread := mem_of_thread arriving
    have inside : ∀ message ∈ thread.messages, message ∈ other.messages := fun message mem =>
      mem_messages.mpr ⟨thread, memThread, mem⟩
    have translated : translate book.known numbers thread comment.sequence =
        mergedSequence book.known numbers comment.id := by
      refine le_antisymm (translate_le fun message mem within => ?_)
        (le_translate memComment le_rfl)
      exact (comesBefore_iff sound otherSound merged (inside message mem)
        (inside comment memComment)).mp
          (keeps.2 thread memThread comment.sequence held comment memComment rfl message mem within)
    obtain ⟨moved, memMoved, id, author, -, sequence⟩ :=
      merged.counterpart sound keeps.1 arriving memComment
    obtain ⟨answer, memAnswer, -, replies, named, -⟩ :=
      merged.counterpart sound keeps.1 arriving memReply
    rcases le_total (book.answeredThrough thread.id)
      (translate book.known numbers thread comment.sequence) with below | above
    · rw [max_eq_right below, translated, ← sequence]
      exact ⟨moved, memMoved, author.trans reviewer, rfl, answer, memAnswer, replies.trans agent,
        named.trans (id ▸ names)⟩
    · rw [max_eq_left above]
      cases old : book.answered.lookup thread.id with
      | none =>
        rw [answeredThrough, old, translated, ← sequence] at above
        rw [answeredThrough, old]
        exact ⟨moved, memMoved, author.trans reviewer, Nat.le_zero.mp above, answer, memAnswer,
          replies.trans agent, named.trans (id ▸ names)⟩
      | some position =>
        rw [answeredThrough, old]
        exact kept old
  · exact kept found

end AcknowledgesComments

theorem Reachable.acknowledgesComments (reached : Reachable KeepsPlace book) :
    AcknowledgesComments book :=
  reached.invariant (fun _ => nofun) (fun acknowledges => acknowledges.grow)
    (fun acknowledges => acknowledges.answer)
    fun sound otherSound acknowledges otherAcknowledges keeps effect =>
      acknowledges.merged sound otherSound otherAcknowledges effect keeps

/-- The two records agree: a thread waits exactly when no reply took up its last comment. -/
theorem pending_iff (sound : Sound book) (acknowledges : AcknowledgesComments book)
    (mem : thread ∈ book.threads) : book.pending thread = true ↔
      thread.resolution = .open ∧ ∃ comment, thread.lastComment = some comment ∧
        ∀ reply, ¬ thread.TakesUp reply comment := by
  have held := sound.thread_self mem
  have past : ∀ comment, thread.lastComment = some comment → thread.isAnswered comment = false →
      book.answeredThrough thread.id < comment.sequence := by
    intro comment last free
    obtain ⟨memLast, reviewer⟩ := ReviewThread.lastComment_eq_some last
    have positive := (sound.bounded comment (mem_messages.mpr ⟨thread, mem, memLast⟩)).1
    unfold answeredThrough
    cases found : book.answered.lookup thread.id with
    | none => exact positive
    | some position =>
      obtain ⟨covered, memCovered, -, rfl, reply, memReply, agent, names⟩ :=
        acknowledges thread.id position found
      rw [messagesOf_some held] at memCovered memReply
      by_contra within
      have taken : thread.isAnswered comment = true := ReviewThread.isAnswered_iff.mpr
        ⟨reply, memReply, agent, .inl ⟨covered, memCovered, names, not_lt.mp within⟩⟩
      exact Bool.false_ne_true (free.symm.trans taken)
  simp only [pending, Bool.and_eq_true, decide_eq_true_eq, ReviewThread.isWaiting_iff, and_assoc]
  refine and_congr_right fun _ => ⟨?_, ?_⟩
  · rintro ⟨⟨comment, last, free⟩, -⟩
    refine ⟨comment, last, fun reply taken => ?_⟩
    exact Bool.false_ne_true (free.symm.trans (ReviewThread.isAnswered_iff.mpr ⟨reply, taken⟩))
  · rintro ⟨comment, last, free⟩
    have free : thread.isAnswered comment = false := Bool.eq_false_iff.mpr fun taken =>
      (ReviewThread.isAnswered_iff.mp taken).elim free
    obtain ⟨memLast, reviewer⟩ := ReviewThread.lastComment_eq_some last
    exact ⟨⟨comment, last, free⟩, ReviewThread.hasCommentsAfter_iff.mpr
      ⟨comment, memLast, reviewer, past comment last free⟩⟩

/-- Whether a comment is one that a recipient could bring to its agent. -/
def commentPending (book : ReviewThreads) (thread : ReviewThread) (comment : Message) : Bool :=
  book.pending thread && comment ∈ thread.messages && comment.author = .reviewer &&
    book.answeredThrough thread.id < comment.sequence && !thread.isAnswered comment

theorem commentPending_iff {comment : Message} : book.commentPending thread comment = true ↔
    book.pending thread = true ∧ comment ∈ thread.messages ∧ comment.author = .reviewer ∧
      book.answeredThrough thread.id < comment.sequence ∧ thread.isAnswered comment = false := by
  simp [commentPending, and_assoc]

theorem nodup_messages (sound : Sound book) (mem : thread ∈ book.threads) :
    (thread.messages.map Message.id).Nodup := by
  have nodup := sound.ids
  rw [messages, List.map_flatMap] at nodup
  exact (List.nodup_flatMap.mp nodup).1 thread mem

theorem Sound.answered_ok (sound : Sound book) {post : Post} {now : Nat} {id : MessageId}
    (done : book.answer post now = .ok id after) : Sound after := by
  have step := sound.step (.answer post now) nofun
  rwa [ReviewThreads.after, perform, done] at step

/-- What an answer makes of the thread it is posted in. -/
theorem answer_thread (sound : Sound book) {post : Post} {now : Nat} {id : MessageId}
    {comment : Message} (named : book.namedComment post = some comment)
    (done : book.answer post now = .ok id after) : ∃ thread changed extra reply,
      book.thread post.threadId = some thread ∧ after.thread post.threadId = some changed ∧
      changed.id = thread.id ∧ changed.resolution = thread.resolution ∧
      changed.messages = thread.messages ++ extra ∧
      after.answeredThrough thread.id =
        max (book.answeredThrough thread.id) comment.sequence ∧
      reply ∈ changed.messages ∧ reply.author = .agent ∧ reply.inReplyTo = some comment.id ∧
      ((extra = []) ∨ extra = [reply] ∧ reply.id = post.message.id ∧
        book.message post.message.id = none) := by
  obtain ⟨thread, held, -⟩ := Option.bind_eq_some_iff.mp named
  obtain ⟨-, -, names⟩ := namedComment_eq_some named
  have same := id_of_thread held
  rcases book.answer_cases post now with
    ⟨_, failed⟩ | ⟨other, id, grown, agent, named', posting, ok⟩
  · cases failed.symm.trans done
  · cases ok.symm.trans done
    cases named.symm.trans named'
    rcases book.post_cases post now with
      ⟨_, failed⟩ | ⟨existing, there, repeats, inside, again⟩ | ⟨grown, fresh, added, posted, -⟩
    · cases failed.symm.trans posting
    · cases again.symm.trans posting
      obtain ⟨memReply, author, replies⟩ := reply_of_repeat sound there repeats inside
      rw [messagesOf_some held] at memReply
      refine ⟨thread, thread, [], existing, held, held, rfl, rfl, (List.append_nil _).symm, ?_,
        memReply, author.trans agent, replies.trans names, .inl rfl⟩
      rw [same]
      exact congrArg (Option.getD · 0) SortedMap.lookup_insert_self
    · cases added.symm.trans posting
      have view := posted.thread post.threadId
      rw [if_pos rfl, held] at view
      refine ⟨thread, _, [book.stamped post now], book.stamped post now, held, view, rfl, ?_, rfl, ?_,
        List.mem_append_right _ List.mem_cons_self, agent, names, .inr ⟨rfl, rfl, fresh⟩⟩
      · refine if_neg fun reopens => ?_
        have reviewer : post.message.author = .reviewer := reopens.1
        rw [agent] at reviewer
        cases reviewer
      · have through : grown.answeredThrough thread.id = book.answeredThrough thread.id :=
          congrArg (fun answered => (answered.lookup thread.id).getD 0) posted.answered
        rw [← through, same]
        exact congrArg (Option.getD · 0) SortedMap.lookup_insert_self

/-- Once an answer named a comment, no comment up to it waits, and every later one still does,
unless a reply had named the answer's identity before it was there. -/
theorem answer_takes_up (sound : Sound book) {post : Post} {now : Nat} {id : MessageId}
    {comment : Message} (named : book.namedComment post = some comment)
    (done : book.answer post now = .ok id after) {changed : ReviewThread}
    (held : after.thread post.threadId = some changed) :
    (∀ other, other.sequence ≤ comment.sequence → after.commentPending changed other = false) ∧
    ((book.message post.message.id = none → ∀ reply ∈ book.messagesOf post.threadId,
        reply.inReplyTo ≠ some post.message.id) →
      ∀ thread, book.thread post.threadId = some thread → ∀ later,
        comment.sequence < later.sequence → book.commentPending thread later = true →
          after.commentPending changed later = true) := by
  obtain ⟨thread, same, extra, reply, before, there, sameId, resolution, messages, through, memReply,
    agent, names, extraIs⟩ := answer_thread sound named done
  obtain rfl := Option.some.inj (held.symm.trans there)
  have mem := mem_of_thread before
  have memComment := messagesOf_some before ▸ (namedComment_eq_some named).1
  have kept : ∀ {message}, message ∈ thread.messages → message ∈ changed.messages := fun inside =>
    messages ▸ List.mem_append_left _ inside
  refine ⟨fun other within => ?_, fun unnamed thread' before' later past waits => ?_⟩
  · have taken : changed.isAnswered other = true := ReviewThread.isAnswered_iff.mpr
      ⟨reply, memReply, agent, .inl ⟨comment, kept memComment, names, within⟩⟩
    refine Bool.eq_false_iff.mpr fun waits => ?_
    exact Bool.false_ne_true ((commentPending_iff.mp waits).2.2.2.2.symm.trans taken)
  · obtain rfl := Option.some.inj (before'.symm.trans before)
    obtain ⟨pends, memLater, reviewer, position, free⟩ := commentPending_iff.mp waits
    simp only [pending, Bool.and_eq_true, decide_eq_true_eq] at pends
    obtain ⟨⟨isOpen, waiting⟩, commented⟩ := pends
    obtain ⟨last, lastHeld, lastFree⟩ := ReviewThread.isWaiting_iff.mp waiting
    have increasing := sound.increasing thread' mem
    have lastAfter := ReviewThread.le_lastComment increasing lastHeld memLater reviewer
    have stays : ∀ {other : Message}, comment.sequence < other.sequence →
        thread'.isAnswered other = false → changed.isAnswered other = false := by
      intro other past free
      rcases extraIs with rfl | ⟨rfl, sameReply, fresh⟩
      · rw [List.append_nil] at messages
        rwa [ReviewThread.isAnswered, messages]
      · refine ReviewThread.isAnswered_append messages
          (nodup_messages (sound.answered_ok done) (mem_of_thread held)) names memComment
          (fun message inside => ?_) past free
        rw [sameReply]
        exact unnamed fresh message (messagesOf_some before ▸ inside)
    have agents : ∀ message ∈ extra, message.author = .agent := by
      intro message inside
      rcases extraIs with rfl | ⟨rfl, -⟩
      · cases inside
      · exact List.mem_singleton.mp inside ▸ agent
    have lastThere : changed.lastComment = some last :=
      (ReviewThread.lastComment_append messages agents).trans lastHeld
    obtain ⟨earlier, memEarlier, reviewerEarlier, pastEarlier⟩ :=
      ReviewThread.hasCommentsAfter_iff.mp commented
    have lastPast : book.answeredThrough thread'.id < last.sequence :=
      pastEarlier.trans_le (ReviewThread.le_lastComment increasing lastHeld memEarlier reviewerEarlier)
    have memLast := ReviewThread.lastComment_eq_some lastThere
    refine commentPending_iff.mpr ⟨?_, kept memLater, reviewer, ?_, stays past free⟩
    · simp only [pending, Bool.and_eq_true, decide_eq_true_eq]
      refine ⟨⟨resolution.trans isOpen, ReviewThread.isWaiting_iff.mpr
        ⟨last, lastThere, stays (past.trans_le lastAfter) lastFree⟩⟩,
        ReviewThread.hasCommentsAfter_iff.mpr ⟨last, memLast.1, memLast.2, ?_⟩⟩
      rw [sameId, through]
      exact max_lt lastPast (past.trans_le lastAfter)
    · rw [sameId, through]
      exact max_lt position past

/-- The sequence to answer through is that of the last comment of a conversation given. -/
theorem sequence_given {recipient : Recipient} {sequence : Nat}
    (told : book.pendingCommentSequenceFor recipient = some sequence) :
    ∃ thread ∈ book.newMessagesFor recipient, ∃ comment ∈ thread.messages,
      comment.author = .reviewer ∧ comment.sequence = sequence := by
  obtain ⟨comment, mem, rfl⟩ := List.mem_map.mp (List.max?_mem told)
  obtain ⟨thread, given, last⟩ := List.mem_filterMap.mp mem
  obtain ⟨inside, reviewer⟩ := ReviewThread.lastComment_eq_some last
  exact ⟨thread, given, comment, inside, reviewer, rfl⟩

/-- A thread waits exactly when it is open and no reply took up its last comment; an answer takes
up the comments through the one it names and leaves the later ones waiting; a recipient is told
to answer through a comment it was given. -/
theorem comments_wait_for_answers :
    (∀ book, Reachable KeepsPlace book → ∀ thread ∈ book.threads,
      (book.pending thread = true ↔
        thread.resolution = .open ∧ ∃ comment, thread.lastComment = some comment ∧
          ∀ reply, ¬ thread.TakesUp reply comment)) ∧
    (∀ book, Reachable (fun _ _ => True) book → ∀ post now id after comment,
      book.answer post now = .ok id after → book.namedComment post = some comment →
      ∀ changed, after.thread post.threadId = some changed →
        (∀ other, other.sequence ≤ comment.sequence → after.commentPending changed other = false) ∧
        ((book.message post.message.id = none → ∀ reply ∈ book.messagesOf post.threadId,
            reply.inReplyTo ≠ some post.message.id) →
          ∀ thread, book.thread post.threadId = some thread → ∀ later,
            comment.sequence < later.sequence → book.commentPending thread later = true →
              after.commentPending changed later = true)) ∧
    ∀ book, Reachable (fun _ _ => True) book → ∀ recipient sequence,
      book.pendingCommentSequenceFor recipient = some sequence →
        ∃ thread ∈ book.newMessagesFor recipient, ∃ comment ∈ thread.messages,
          comment.author = .reviewer ∧ comment.sequence = sequence :=
  ⟨fun _ reached _ => pending_iff reached.sound reached.acknowledgesComments,
    fun _ reached _ _ _ _ _ done named _ => answer_takes_up reached.sound named done,
    fun _ _ _ _ => sequence_given⟩

section Samples

/-- A reply that names no comment, as builds before acknowledgements posted. -/
def repliedPlainly : ReviewThreads :=
  started.after (.post (samplePost "a1" "Reply" .agent none none) 0)

/-- A reply that names a message which is not there yet, and two comments. -/
def namedAhead : ReviewThreads :=
  (started.after (.post (samplePost "a1" "Reply" .agent none (some "a2")) 0)).after
    (.post (comment "c2") 0)

def answeredFirst : Post := samplePost "a2" "Answer" .agent none (some "c1")

/-- A reply that names nothing takes up the comments before it, and one that named an answer
before it was posted takes up the comments before the answer. -/
theorem replies_take_up_unnamed :
    (Reachable (fun _ _ => True) repliedPlainly ∧
      ∃ thread ∈ repliedPlainly.threads, thread.resolution = .open ∧
        repliedPlainly.pending thread = false ∧
        ∃ comment, thread.lastComment = some comment ∧ ∀ reply ∈ thread.messages,
          ∀ covered ∈ thread.messages, reply.inReplyTo = some covered.id →
            covered.sequence < comment.sequence) ∧
    Reachable (fun _ _ => True) namedAhead ∧
      (∃ comment, namedAhead.namedComment answeredFirst = some comment ∧ comment.sequence = 1) ∧
      (∃ thread ∈ namedAhead.threads, ∃ later ∈ thread.messages, later.sequence = 3 ∧
        namedAhead.commentPending thread later = true) ∧
      ∀ thread ∈ (namedAhead.after (.answer answeredFirst 0)).threads, ∀ later ∈ thread.messages,
        (namedAhead.after (.answer answeredFirst 0)).commentPending thread later = false := by
  have plain : Reachable (fun _ _ => True) repliedPlainly :=
    .step _ (reachable_started _) nofun nofun
  have ahead : Reachable (fun _ _ => True) namedAhead :=
    .step _ (.step _ (reachable_started _) nofun nofun) nofun nofun
  refine ⟨⟨plain, ?_⟩, ahead, ?_, by decide, by decide⟩
  · refine ⟨_, List.mem_cons_self, by decide, by decide, _, rfl, by decide⟩
  · exact ⟨_, rfl, by decide⟩

def staleAnswer : Post := samplePost "a1" "Answer" .agent none (some "c1")

/-- An agent that read the first comment only leaves the second one waiting. -/
theorem stale_answer_leaves_comment : ∃ after changed,
    kept.answer staleAnswer 0 = .ok "a1" after ∧ after.thread "thread" = some changed ∧
      (∀ other, other.sequence ≤ 1 → after.commentPending changed other = false) ∧
      ∃ later, later.sequence = 2 ∧ after.commentPending changed later = true := by
  have reached : Reachable (fun _ _ => True) kept := .step _ (reachable_started _) nofun nofun
  have done : kept.answer staleAnswer 0 = .ok "a1" (kept.after (.answer staleAnswer 0)) := rfl
  obtain ⟨comment, named, first⟩ : ∃ comment, kept.namedComment staleAnswer = some comment ∧
      comment.sequence = 1 := ⟨_, rfl, by decide⟩
  obtain ⟨thread, before, later, second, waits⟩ : ∃ thread, kept.thread "thread" = some thread ∧
      ∃ later, later.sequence = 2 ∧ kept.commentPending thread later = true :=
    ⟨_, rfl, ⟨"c2", .reviewer, "A comment", none, none, none, some 0, none, 2⟩, by decide⟩
  obtain ⟨changed, held⟩ : ∃ changed,
      (kept.after (.answer staleAnswer 0)).thread "thread" = some changed := ⟨_, rfl⟩
  obtain ⟨taken, waiting⟩ :=
    comments_wait_for_answers.2.1 kept reached staleAnswer 0 "a1" _ comment done named changed held
  rw [first] at taken waiting
  refine ⟨_, changed, done, held, taken, later, second, ?_⟩
  exact waiting (fun _ => by decide) thread before later (by omega) waits

end Samples

end ReviewThreads

end ProgressiveReviewer.Threads
