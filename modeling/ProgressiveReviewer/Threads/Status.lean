import ProgressiveReviewer.Threads.Apart

/-! The status of a thread, and when a merge keeps that of either document. -/

namespace ProgressiveReviewer.Threads

open Library

/-- What a reviewer sees of a thread: whether it waits, which comments a reply took up, which
ones the answered position covers, and which replies are unread. -/
structure Status where
  pending : Bool
  answered : List MessageId
  acknowledged : List MessageId
  unread : List MessageId
  deriving DecidableEq, Repr

namespace ReviewThreads

def status (book : ReviewThreads) (id : ThreadId) : Status :=
  match book.thread id with
  | none => ⟨false, [], [], []⟩
  | some thread =>
    { pending := book.pending thread
      answered := (thread.messages.filter fun message =>
        message.author = .reviewer && thread.isAnswered message).map Message.id
      acknowledged := (thread.messages.filter fun message =>
        message.author = .reviewer && message.sequence ≤ book.answeredThrough id).map Message.id
      unread := thread.unreadReplies.map Message.id }

variable {common book other after : ReviewThreads} {numbers : MessageId → Option Nat}
  {id : ThreadId} {thread changed : ReviewThread}

theorem status_some (held : book.thread id = some thread) : book.status id =
    { pending := book.pending thread
      answered := (thread.messages.filter fun message =>
        message.author = .reviewer && thread.isAnswered message).map Message.id
      acknowledged := (thread.messages.filter fun message =>
        message.author = .reviewer && message.sequence ≤ book.answeredThrough id).map Message.id
      unread := thread.unreadReplies.map Message.id } := by
  rw [status, held]

theorem unread_iff {message : Message} : thread.unread message = true ↔
    message.author = .agent ∧ thread.seenReplyThrough < message.sequence ∧
      message.id ∉ thread.seenReplies := by
  simp [ReviewThread.unread, and_assoc]

theorem mem_unread {reply : MessageId} : reply ∈ (book.status id).unread ↔
    ∃ thread, book.thread id = some thread ∧ ∃ message ∈ thread.messages,
      message.id = reply ∧ thread.unread message = true := by
  unfold status
  cases book.thread id with
  | none => simp
  | some thread =>
    simp only [ReviewThread.unreadReplies, List.mem_map, List.mem_filter, Option.some.injEq,
      exists_eq_left']
    exact ⟨fun ⟨message, ⟨mem, unread⟩, same⟩ => ⟨message, mem, same, unread⟩,
      fun ⟨message, mem, same, unread⟩ => ⟨message, ⟨mem, unread⟩, same⟩⟩

/-! ## A thread whose messages are numbered anew -/

section Moved

variable (messages : changed.messages = thread.messages.map (book.moved numbers))
  (order : ∀ first ∈ thread.messages, ∀ second ∈ thread.messages,
    (book.moved numbers first).sequence ≤ (book.moved numbers second).sequence ↔
      first.sequence ≤ second.sequence)
include messages order

theorem isAnswered_moved {comment : Message} (mem : comment ∈ thread.messages) :
    changed.isAnswered (book.moved numbers comment) = thread.isAnswered comment := by
  rw [Bool.eq_iff_iff, ReviewThread.isAnswered_iff, ReviewThread.isAnswered_iff]
  have takes : ∀ reply ∈ thread.messages,
      changed.TakesUp (book.moved numbers reply) (book.moved numbers comment) ↔
        thread.TakesUp reply comment := by
    intro reply memReply
    have inside : ∀ {message}, message ∈ thread.messages →
        book.moved numbers message ∈ changed.messages := fun mem =>
      messages ▸ List.mem_map_of_mem mem
    refine and_congr (iff_of_true (inside memReply) memReply)
      (and_congr_right fun _ => or_congr ⟨?_, ?_⟩ (and_congr_right fun _ => ?_))
    · rintro ⟨covered, memCovered, names, later⟩
      obtain ⟨original, memOriginal, rfl⟩ := List.mem_map.mp (messages ▸ memCovered)
      exact ⟨original, memOriginal, names, (order _ mem _ memOriginal).mp later⟩
    · rintro ⟨covered, memCovered, names, later⟩
      exact ⟨_, inside memCovered, names, (order _ mem _ memCovered).mpr later⟩
    · rw [← not_le, ← not_le, not_iff_not]
      exact order _ memReply _ mem
  constructor
  · rintro ⟨reply, taken⟩
    obtain ⟨original, memOriginal, rfl⟩ := List.mem_map.mp (messages ▸ taken.1)
    exact ⟨original, (takes original memOriginal).mp taken⟩
  · rintro ⟨reply, taken⟩
    exact ⟨_, (takes reply taken.1).mpr taken⟩

omit order in
theorem lastComment_moved : changed.lastComment = thread.lastComment.map (book.moved numbers) := by
  rw [ReviewThread.lastComment, messages, ← List.map_reverse, List.find?_map]
  rfl

theorem isWaiting_moved : changed.isWaiting = thread.isWaiting := by
  rw [ReviewThread.isWaiting, ReviewThread.isWaiting, lastComment_moved messages]
  cases last : thread.lastComment with
  | none => rfl
  | some comment =>
    rw [Option.map_some, Option.any_some, Option.any_some,
      isAnswered_moved messages order (ReviewThread.lastComment_eq_some last).1]

omit order in
/-- The messages that pass a test before, moved, are those that pass it after. -/
theorem filter_moved {test before : Message → Bool}
    (same : ∀ message ∈ thread.messages, test (book.moved numbers message) = before message) :
    (changed.messages.filter test).map Message.id =
      (thread.messages.filter before).map Message.id := by
  rw [messages, List.filter_map, List.map_map]
  exact congrArg (List.map Message.id) (List.filter_congr fun message mem => same message mem)

end Moved

theorem answeredThrough_some {position : Nat} (found : book.answered.lookup id = some position) :
    book.answeredThrough id = position := by
  rw [answeredThrough, found]
  rfl

theorem status_congr (same : after.thread id = book.thread id)
    (through : after.answeredThrough id = book.answeredThrough id) :
    after.status id = book.status id := by
  unfold status
  rw [same]
  cases held : book.thread id with
  | none => rfl
  | some thread =>
    obtain rfl := id_of_thread held
    simp only [pending, through]

/-- No thread that only the other document continued, and where comments still wait, was resolved
there, or opened again there without a new message. -/
def KeepsResolutions (common book other : ReviewThreads) : Prop :=
  ∀ id held thread, book.thread id = some held → common.thread id = some held →
    book.answered.lookup id = common.answered.lookup id → other.thread id = some thread →
      thread.isWaiting = true → thread.hasCommentsAfter (other.answeredThrough id) = true →
        held.resolution = thread.resolution ∨ thread.resolution = .open ∧
          ∃ message ∈ thread.messages, message.id ∉ held.messages.map Message.id

/-- Where this document has an unread reply that the other lacks, the read mark of the other
covers no message that this one lacks. -/
def KeepsReadMarks (book other : ReviewThreads) : Prop :=
  ∀ id held thread, book.thread id = some held → other.thread id = some thread →
    (∃ reply ∈ held.unreadReplies, reply.id ∉ thread.messages.map Message.id) →
      ∀ message ∈ thread.messages, message.id ∉ held.messages.map Message.id →
        thread.seenReplyThrough < message.sequence

namespace Fork

variable (fork : Fork common book other) (merged : Merged book other after numbers)
include fork merged

/-- A thread that the other document left as it was stays as this one has it. -/
theorem status_here (left : other.thread id = common.thread id)
    (answered : other.answered.lookup id = common.answered.lookup id) :
    after.status id = book.status id := by
  have view := merged.thread id
  have covered := merged.answered id
  cases held : other.thread id with
  | none =>
    rw [held] at view covered
    exact status_congr view (congrArg (Option.getD · 0) covered)
  | some thread =>
    rw [held] at view covered left
    have mem := mem_of_thread held
    obtain ⟨kept, there, seen, replies⟩ := fork.continues.thread id thread left.symm
    obtain ⟨extra, same, arrives, -, -⟩ := fork.arrived_eq merged held
    have none : extra = [] := by
      rw [messagesOf_some left.symm] at same
      exact List.self_eq_append_right.mp same
    rw [none, List.map_nil] at arrives
    have below : ∀ position, translate book.known numbers thread position ≤ position := by
      intro position
      refine translate_le fun message inside within => ?_
      have inCommon := mem_messages_of_messagesOf (messagesOf_some left.symm ▸ inside)
      rw [fork.mergedSequence_shared merged (mem_messages.mpr ⟨thread, mem, inside⟩)
        (List.mem_map_of_mem (fork.continues.mem_messages fork.soundCommon inCommon))]
      exact within
    refine status_congr ?_ ?_
    · rw [view, there]
      simp only [joined, arrives, ne_eq, not_true_eq_false, false_and, if_false, List.append_nil,
        max_eq_left ((below _).trans seen), Finset.union_eq_left.mpr replies]
    · rw [answeredThrough, covered]
      cases found : other.answered.lookup id with
      | none => rfl
      | some position =>
        obtain ⟨further, still, le⟩ := fork.continues.answered id position (answered ▸ found)
        dsimp only
        rw [answeredThrough_some still, Option.getD_some]
        exact max_eq_left ((below position).trans le)

/-- A thread that this document left as it was comes as the other has it, but for whether it is
open. -/
theorem thread_there (left : book.thread id = common.thread id)
    (answered : book.answered.lookup id = common.answered.lookup id)
    (held : other.thread id = some thread) : ∃ changed, after.thread id = some changed ∧
      changed.messages = thread.messages.map (book.moved numbers) ∧
      changed.seenReplies = thread.seenReplies ∧
      (∀ message ∈ thread.messages, mergedSequence book.known numbers message.id ≤
        changed.seenReplyThrough ↔ message.sequence ≤ thread.seenReplyThrough) ∧
      (∀ message ∈ thread.messages, mergedSequence book.known numbers message.id ≤
        after.answeredThrough id ↔ message.sequence ≤ other.answeredThrough id) ∧
      changed.resolution = (match book.thread id with
        | none => thread.resolution
        | some kept => if (∃ message ∈ thread.messages, message.id ∉ kept.messages.map Message.id) ∧
            thread.resolution = .open then .open else kept.resolution) := by
  have view := merged.thread id
  have covered := merged.answered id
  rw [held] at view covered
  have mem := mem_of_thread held
  obtain ⟨extra, same, arrives, common', new⟩ := fork.arrived_eq merged held
  have through : ∀ message ∈ thread.messages, mergedSequence book.known numbers message.id ≤
      after.answeredThrough id ↔ message.sequence ≤ other.answeredThrough id := by
    intro message inside
    cases found : other.answered.lookup id with
    | none =>
      have absent : book.answered.lookup id = none := by
        cases there : book.answered.lookup id with
        | none => rfl
        | some position =>
          obtain ⟨further, still, -⟩ := fork.continuesOther.answered id position (answered ▸ there)
          rw [found] at still
          cases still
      rw [found] at covered
      dsimp only at covered
      rw [answeredThrough, covered, absent, answeredThrough, found, Option.getD_none]
      have cover := fork.covers_iff merged 0 0 mem inside (Nat.zero_le _) le_rfl
      refine ⟨fun zero => cover.mp (zero.trans (Nat.zero_le _)), fun zero => ?_⟩
      exact absurd zero
        (fork.soundOther.bounded message (mem_messages.mpr ⟨thread, mem, inside⟩)).1.not_ge
    | some position =>
      rw [found] at covered
      rw [answeredThrough_some found, answeredThrough_some covered]
      refine fork.covers_iff merged _ _ mem inside (fork.sound.answeredThrough_le id) ?_
      cases there : book.answered.lookup id with
      | none => rw [answeredThrough, there]; exact Nat.zero_le _
      | some reached =>
        obtain ⟨further, still, le⟩ := fork.continuesOther.answered id reached (answered ▸ there)
        rw [answeredThrough_some there]
        exact le.trans (Option.some.inj (still.symm.trans found)).le
  cases here : book.thread id with
  | none =>
    rw [here] at view left
    rw [messagesOf_none left.symm] at same
    refine ⟨_, view, ?_, rfl, fun message inside => ?_, through, rfl⟩
    · exact arrives.trans (by rw [same]; rfl)
    · have cover := fork.covers_iff merged thread.seenReplyThrough 0 mem inside
        (Nat.zero_le _) (Nat.zero_le _)
      rwa [Nat.zero_max] at cover
  | some kept =>
    rw [here] at view left
    obtain ⟨changed, still, seen, replies⟩ := fork.continuesOther.thread id kept left.symm
    obtain rfl := Option.some.inj (held.symm.trans still)
    have own := messagesOf_some left.symm
    rw [own] at same common'
    refine ⟨_, view, ?_, Finset.union_eq_right.mpr replies, fun message inside => ?_, through, ?_⟩
    · rw [same, List.map_append, common', ← arrives]
      rfl
    · exact fork.covers_iff merged _ _ mem inside (fork.sound.seen kept (mem_of_thread here)) seen
    · have arriving : arrived numbers thread ≠ [] ↔
          ∃ message ∈ thread.messages, message.id ∉ kept.messages.map Message.id := by
        rw [arrives, ne_eq, List.map_eq_nil_iff, same]
        constructor
        · intro some
          obtain ⟨message, inside⟩ := List.exists_mem_of_ne_nil _ some
          refine ⟨message, List.mem_append_right _ inside, fun listed => new message inside ?_⟩
          obtain ⟨other, memOther, equal⟩ := List.mem_map.mp listed
          exact equal ▸ List.mem_map_of_mem (mem_messages.mpr ⟨kept, mem_of_thread here, memOther⟩)
        · rintro ⟨message, inside, absent⟩ none
          rw [none, List.append_nil] at inside
          exact absent (List.mem_map_of_mem inside)
      simp only [joined, arriving]

/-- Whether a comment of a thread waits, whatever its resolution. -/
theorem status_there (left : book.thread id = common.thread id)
    (answered : book.answered.lookup id = common.answered.lookup id)
    (held : other.thread id = some thread) : ∃ changed, after.thread id = some changed ∧
      (after.status id).answered = (other.status id).answered ∧
      (after.status id).acknowledged = (other.status id).acknowledged ∧
      (after.status id).unread = (other.status id).unread ∧
      (after.status id).pending = (changed.resolution = .open && thread.isWaiting &&
        thread.hasCommentsAfter (other.answeredThrough id)) ∧
      changed.resolution = (match book.thread id with
        | none => thread.resolution
        | some kept => if (∃ message ∈ thread.messages, message.id ∉ kept.messages.map Message.id) ∧
            thread.resolution = .open then .open else kept.resolution) := by
  obtain ⟨changed, there, messages, replies, seen, through, resolution⟩ :=
    fork.thread_there merged left answered held
  have mem := mem_of_thread held
  have order : ∀ first ∈ thread.messages, ∀ second ∈ thread.messages,
      (book.moved numbers first).sequence ≤ (book.moved numbers second).sequence ↔
        first.sequence ≤ second.sequence := fun first memFirst second memSecond =>
    fork.mergedSequence_le_iff merged (mem_messages.mpr ⟨thread, mem, memFirst⟩)
      (mem_messages.mpr ⟨thread, mem, memSecond⟩)
  rw [status_some there, status_some held]
  refine ⟨changed, there, ?_, ?_, ?_, ?_, resolution⟩
  · exact filter_moved messages fun message inside => by
      rw [isAnswered_moved messages order inside]
      rfl
  · refine filter_moved messages fun message inside => ?_
    exact congrArg (message.author = .reviewer && ·) (decide_eq_decide.mpr (through message inside))
  · refine filter_moved messages fun message inside => ?_
    have unseen : changed.seenReplyThrough < mergedSequence book.known numbers message.id ↔
        thread.seenReplyThrough < message.sequence := by
      rw [← not_le, ← not_le, not_iff_not]
      exact seen message inside
    rw [Bool.eq_iff_iff, unread_iff, unread_iff, replies]
    exact and_congr Iff.rfl (and_congr unseen Iff.rfl)
  · rw [pending, id_of_thread there, isWaiting_moved messages order]
    refine congrArg (changed.resolution = .open && thread.isWaiting && ·) ?_
    rw [Bool.eq_iff_iff, ReviewThread.hasCommentsAfter_iff, ReviewThread.hasCommentsAfter_iff, messages]
    have past : ∀ message ∈ thread.messages,
        after.answeredThrough id < (book.moved numbers message).sequence ↔
          other.answeredThrough id < message.sequence := by
      intro message inside
      rw [← not_le, ← not_le, not_iff_not]
      exact through message inside
    constructor
    · rintro ⟨_, listed, reviewer, later⟩
      obtain ⟨message, inside, rfl⟩ := List.mem_map.mp listed
      exact ⟨message, inside, reviewer, (past message inside).mp later⟩
    · rintro ⟨message, inside, reviewer, later⟩
      exact ⟨_, List.mem_map_of_mem inside, reviewer, (past message inside).mpr later⟩

theorem translate_lt {message : Message} (held : other.thread id = some thread)
    (inside : message ∈ thread.messages) (past : thread.seenReplyThrough < message.sequence) :
    translate book.known numbers thread thread.seenReplyThrough <
      mergedSequence book.known numbers message.id := by
  have cover := fork.covers_iff merged thread.seenReplyThrough 0 (mem_of_thread held) inside
    (Nat.zero_le _) (Nat.zero_le _)
  rw [Nat.zero_max] at cover
  exact not_le.mp (mt cover.mp past.not_ge)

/-- A reply unread in the other document, and not read in this one, stays unread. -/
theorem unread_there {reply : MessageId} (unread : reply ∈ (other.status id).unread)
    (here : reply ∉ (book.messagesOf id).map Message.id ∨ reply ∈ (book.status id).unread) :
    reply ∈ (after.status id).unread := by
  obtain ⟨thread, held, message, inside, rfl, unseen⟩ := mem_unread.mp unread
  obtain ⟨agent, past, notRead⟩ := unread_iff.mp unseen
  have view := merged.thread id
  rw [held] at view
  have inOther := mem_messages.mpr ⟨thread, mem_of_thread held, inside⟩
  have below := fork.translate_lt merged held inside past
  obtain ⟨extra, same, arrives, -, new⟩ := fork.arrived_eq merged held
  rcases List.mem_append.mp (same ▸ inside) with old | own
  · obtain ⟨more, bookSame, -⟩ := fork.continues.messages id
    have inBook : message ∈ book.messagesOf id := bookSame ▸ List.mem_append_left _ old
    have listed := List.mem_map_of_mem (f := Message.id) (mem_messages_of_messagesOf inBook)
    rw [fork.mergedSequence_shared merged inOther listed] at below
    obtain ⟨kept, there, twin, memTwin, twinId, twinUnread⟩ := mem_unread.mp
      (here.resolve_left (not_not.mpr (List.mem_map_of_mem inBook)))
    rw [messagesOf_some there] at inBook
    obtain rfl := List.inj_on_of_nodup_map (nodup_messages fork.sound (mem_of_thread there))
      memTwin inBook twinId
    obtain ⟨-, pastHere, notReadHere⟩ := unread_iff.mp twinUnread
    rw [there] at view
    refine mem_unread.mpr ⟨_, view, twin, List.mem_append_left _ inBook, rfl,
      unread_iff.mpr ⟨agent, max_lt pastHere below, fun read => ?_⟩⟩
    exact (Finset.mem_union.mp read).elim notReadHere notRead
  · have absent := new message own
    have above := mergedSequence_own merged inOther absent
    have arriving : book.moved numbers message ∈ arrived numbers thread :=
      arrives ▸ List.mem_map_of_mem own
    cases there : book.thread id with
    | none =>
      rw [there] at view
      exact mem_unread.mpr ⟨_, view, _, arriving, rfl, unread_iff.mpr ⟨agent, below, notRead⟩⟩
    | some kept =>
      rw [there] at view
      refine mem_unread.mpr ⟨_, view, _, List.mem_append_right _ arriving, rfl,
        unread_iff.mpr ⟨agent, max_lt ?_ below, fun read => ?_⟩⟩
      · exact (fork.sound.seen kept (mem_of_thread there)).trans_lt above
      · exact (Finset.mem_union.mp read).elim
          (fun read => absent (fork.sound.read kept (mem_of_thread there) _ read)) notRead

/-- A reply unread in this document, and not read in the other, stays unread where no read mark
of the other covers more than it showed. -/
theorem unread_here (marks : KeepsReadMarks book other) {reply : MessageId}
    (unread : reply ∈ (book.status id).unread)
    (there : reply ∉ (other.messagesOf id).map Message.id ∨ reply ∈ (other.status id).unread) :
    reply ∈ (after.status id).unread := by
  obtain ⟨kept, held, message, inside, rfl, unseen⟩ := mem_unread.mp unread
  obtain ⟨agent, past, notRead⟩ := unread_iff.mp unseen
  have view := merged.thread id
  have inBook := mem_messages.mpr ⟨kept, mem_of_thread held, inside⟩
  cases arriving : other.thread id with
  | none =>
    rw [arriving, held] at view
    exact mem_unread.mpr ⟨kept, view, message, inside, rfl, unread_iff.mpr ⟨agent, past, notRead⟩⟩
  | some thread =>
    rw [arriving, held] at view
    have stays : translate book.known numbers thread thread.seenReplyThrough < message.sequence ∧
        message.id ∉ thread.seenReplies := by
      rw [messagesOf_some arriving] at there
      by_cases listed : message.id ∈ thread.messages.map Message.id
      · obtain ⟨_, found, twin, memTwin, same, twinUnread⟩ :=
          mem_unread.mp (there.resolve_left (not_not.mpr listed))
        obtain rfl := Option.some.inj (found.symm.trans arriving)
        obtain ⟨-, pastThere, notReadThere⟩ := unread_iff.mp twinUnread
        have below := fork.translate_lt merged arriving memTwin pastThere
        have inOther := mem_messages.mpr ⟨_, mem_of_thread arriving, memTwin⟩
        have listedHere : twin.id ∈ book.messages.map Message.id := same ▸ List.mem_map_of_mem inBook
        obtain rfl := List.inj_on_of_nodup_map fork.sound.ids (fork.shared inOther listedHere).2.1
          inBook same
        rw [fork.mergedSequence_shared merged inOther listedHere] at below
        exact ⟨below, notReadThere⟩
      · -- The reply is one of this document alone: it came after all the common messages.
        have own : common.sequence < message.sequence := by
          obtain ⟨more, same, above⟩ := fork.continues.messages id
          obtain ⟨extra, sameOther, -⟩ := fork.arrived_eq merged arriving
          rw [messagesOf_some held] at same
          refine (List.mem_append.mp (same ▸ inside)).elim (fun old => ?_) (above message)
          exact absurd (List.mem_map_of_mem (sameOther ▸ List.mem_append_left _ old)) listed
        have commonBelow : ∀ {other : Message}, other ∈ common.messages →
            other.sequence < message.sequence := fun mem =>
          (fork.soundCommon.bounded _ mem).2.trans_lt own
        refine ⟨?_, fun read => ?_⟩
        · rcases translate_cases book.known numbers thread thread.seenReplyThrough with
            ⟨latest, memLatest, covered, same, -⟩ | ⟨-, same⟩
          · have inOther := mem_messages.mpr ⟨thread, mem_of_thread arriving, memLatest⟩
            have inHeld : latest.id ∈ kept.messages.map Message.id := by
              by_contra absent
              exact absurd covered (marks id kept thread held arriving
                ⟨message, List.mem_filter.mpr ⟨inside, unseen⟩, listed⟩ latest memLatest absent).not_ge
            obtain ⟨twin, memTwin, twinId⟩ := List.mem_map.mp inHeld
            have listedHere : latest.id ∈ book.messages.map Message.id :=
              twinId ▸ List.mem_map_of_mem (mem_messages.mpr ⟨kept, mem_of_thread held, memTwin⟩)
            rw [same, fork.mergedSequence_shared merged inOther listedHere]
            exact commonBelow (fork.shared inOther listedHere).1
          · rw [same]
            exact (fork.sound.bounded message inBook).1
        · have inOther := fork.soundOther.read thread (mem_of_thread arriving) _ read
          obtain ⟨twin, memTwin, same⟩ := List.mem_map.mp
            (fork.apart message.id (List.mem_map_of_mem inBook) inOther)
          obtain rfl := List.inj_on_of_nodup_map fork.sound.ids
            (fork.continues.mem_messages fork.soundCommon memTwin) inBook same
          exact absurd (commonBelow memTwin) (lt_irrefl _)
    refine mem_unread.mpr ⟨_, view, message, List.mem_append_left _ inside, rfl,
      unread_iff.mpr ⟨agent, max_lt past stays.1, fun read => ?_⟩⟩
    exact (Finset.mem_union.mp read).elim notRead stays.2

end Fork

/-- What a merge of two documents continued apart should leave. -/
structure LosesNothing (common book other after : ReviewThreads) : Prop where
  once : (after.messages.map Message.id).Nodup
  kept : ∀ id, ∀ message ∈ book.messagesOf id, message ∈ after.messagesOf id
  brought : ∀ id, ∀ message ∈ other.messagesOf id, ∃ sequence,
    { message with sequence } ∈ after.messagesOf id
  order : ∀ id,
    ((book.messagesOf id).map Message.id).Sublist ((after.messagesOf id).map Message.id) ∧
    ((other.messagesOf id).map Message.id).Sublist ((after.messagesOf id).map Message.id)
  again : after.merge other = .ok () after
  statusHere : ∀ id, other.thread id = common.thread id →
    other.answered.lookup id = common.answered.lookup id → after.status id = book.status id
  statusThere : ∀ id, book.thread id = common.thread id →
    book.answered.lookup id = common.answered.lookup id → after.status id = other.status id
  unreadHere : ∀ id, ∀ reply ∈ (book.status id).unread,
    reply ∉ (other.messagesOf id).map Message.id ∨ reply ∈ (other.status id).unread →
      reply ∈ (after.status id).unread
  unreadThere : ∀ id, ∀ reply ∈ (other.status id).unread,
    reply ∉ (book.messagesOf id).map Message.id ∨ reply ∈ (book.status id).unread →
      reply ∈ (after.status id).unread

namespace Fork

variable (fork : Fork common book other) (merged : Merged book other after numbers)
include fork merged

theorem messagesOf_there (id : ThreadId) : ∃ own,
    other.messagesOf id = common.messagesOf id ++ own ∧
      after.messagesOf id = book.messagesOf id ++ own.map (book.moved numbers) := by
  rw [merged.messagesOf]
  cases held : other.thread id with
  | none =>
    obtain ⟨extra, same, -⟩ := fork.continuesOther.messages id
    rw [messagesOf_none held] at same ⊢
    obtain ⟨none, rfl⟩ := List.append_eq_nil_iff.mp same.symm
    exact ⟨[], by rw [none]; rfl, rfl⟩
  | some thread =>
    obtain ⟨extra, same, arrives, -⟩ := fork.arrived_eq merged held
    rw [messagesOf_some held]
    exact ⟨extra, same, congrArg (book.messagesOf id ++ ·) arrives⟩

theorem status_kept (resolutions : KeepsResolutions common book other)
    (left : book.thread id = common.thread id)
    (answered : book.answered.lookup id = common.answered.lookup id) :
    after.status id = other.status id := by
  cases held : other.thread id with
  | none =>
    have missing : book.thread id = none := by
      cases here : book.thread id with
      | none => rfl
      | some kept =>
        obtain ⟨changed, still, -⟩ := fork.continuesOther.thread id kept (left ▸ here)
        cases held.symm.trans still
    have view := merged.thread id
    rw [held] at view
    rw [status, status, view.trans missing, held]
  | some thread =>
    obtain ⟨changed, there, taken, covered, unread, pends, resolution⟩ :=
      fork.status_there merged left answered held
    have pending : (after.status id).pending = (other.status id).pending := by
      rw [pends, status_some held]
      dsimp only
      rw [ReviewThreads.pending, id_of_thread held]
      by_cases waits : thread.isWaiting = true ∧
          thread.hasCommentsAfter (other.answeredThrough id) = true
      · have same : changed.resolution = thread.resolution := by
          rw [resolution]
          cases here : book.thread id with
          | none => rfl
          | some kept =>
            dsimp only
            have keeps := resolutions id kept thread here (left ▸ here) answered held waits.1 waits.2
            split_ifs with opens
            · exact opens.2.symm
            · exact keeps.resolve_right fun both => opens both.symm
        rw [same]
      · rcases Bool.eq_false_or_eq_true thread.isWaiting with waiting | waiting
        · have none := Bool.eq_false_iff.mpr fun after => waits ⟨waiting, after⟩
          rw [none, Bool.and_false, Bool.and_false]
        · rw [waiting, Bool.and_false, Bool.and_false]
    cases one : after.status id with
    | mk =>
      cases two : other.status id with
      | mk =>
        rw [one, two] at taken covered unread pending
        simp only at taken covered unread pending
        rw [taken, covered, unread, pending]

/-- The merge loses nothing exactly where it keeps resolutions and read marks. -/
theorem losesNothing_iff (unit : other.reviewUnit = book.reviewUnit) :
    LosesNothing common book other after ↔
      KeepsResolutions common book other ∧ KeepsReadMarks book other := by
  constructor
  · intro loses
    refine ⟨fun id held thread here left answered there waiting commented => ?_,
      fun id held thread here there reply message inside absent => ?_⟩
    · obtain ⟨changed, found, -, -, -, pends, resolution⟩ :=
        fork.status_there merged (here.trans left.symm) answered there
      have same := congrArg Status.pending (loses.statusThere id (here.trans left.symm) answered)
      rw [pends, status_some there, waiting, commented] at same
      dsimp only at same
      rw [pending, id_of_thread there, waiting, commented] at same
      simp only [Bool.and_true, decide_eq_decide] at same
      rw [resolution, here] at same
      dsimp only at same
      by_cases opens : (∃ message ∈ thread.messages, message.id ∉ held.messages.map Message.id) ∧
          thread.resolution = .open
      · exact .inr opens.symm
      · rw [if_neg opens] at same
        refine .inl ?_
        cases one : held.resolution <;> cases two : thread.resolution
        · rfl
        · cases two.symm.trans (same.mp one)
        · cases one.symm.trans (same.mpr two)
        · rfl
    · obtain ⟨reply, unread, lacks⟩ := reply
      obtain ⟨memReply, unseen⟩ := List.mem_filter.mp unread
      have inHere := messagesOf_some here
      have stays := loses.unreadHere id reply.id (mem_unread.mpr ⟨held, here, reply, memReply, rfl, unseen⟩)
        (.inl (messagesOf_some there ▸ lacks))
      obtain ⟨changed, found, twin, memTwin, same, twinUnseen⟩ := mem_unread.mp stays
      have view := merged.thread id
      rw [there, here, found] at view
      obtain rfl := Option.some.inj view
      have memAfter := mem_of_thread found
      obtain rfl := List.inj_on_of_nodup_map
        (nodup_messages (fork.sound.merged fork.soundOther merged) memAfter) memTwin
        (List.mem_append_left _ memReply) same
      by_contra covered
      obtain ⟨own, sameOther, arrives, -, new⟩ := fork.arrived_eq merged there
      obtain ⟨extra, sameHere, -⟩ := fork.continues.messages id
      have brought : message ∈ own := (List.mem_append.mp (sameOther ▸ inside)).resolve_left
        fun old => absent (List.mem_map_of_mem
          (inHere ▸ sameHere ▸ List.mem_append_left extra old))
      have inOther := mem_messages.mpr ⟨thread, mem_of_thread there, inside⟩
      have above := mergedSequence_own merged inOther (new message brought)
      have below := (fork.sound.bounded twin
        (mem_messages.mpr ⟨held, mem_of_thread here, memReply⟩)).2
      have seen := (unread_iff.mp twinUnseen).2.1
      have position : mergedSequence book.known numbers message.id ≤
          translate book.known numbers thread thread.seenReplyThrough :=
        le_translate inside (not_lt.mp covered)
      have mark : translate book.known numbers thread thread.seenReplyThrough ≤
          (joined book.known numbers thread (some held)).seenReplyThrough := le_max_right _ _
      omega
  · rintro ⟨resolutions, marks⟩
    refine ⟨(fork.sound.merged fork.soundOther merged).ids, fun id message mem => ?_,
      fun id message mem => ?_, fun id => ?_, merge_again fork.sound fork.soundOther merged unit,
      fun id => fork.status_here merged, fun id => fork.status_kept merged resolutions,
      fun id reply => fork.unread_here merged marks, fun id reply => fork.unread_there merged⟩
    all_goals obtain ⟨own, same, there⟩ := fork.messagesOf_there merged id
    · exact there ▸ List.mem_append_left _ mem
    · obtain ⟨extra, sameHere, -⟩ := fork.continues.messages id
      rw [there]
      rcases List.mem_append.mp (same ▸ mem) with old | own
      · exact ⟨message.sequence, List.mem_append_left _ (sameHere ▸ List.mem_append_left _ old)⟩
      · exact ⟨_, List.mem_append_right _ (List.mem_map_of_mem own)⟩
    · obtain ⟨extra, sameHere, -⟩ := fork.continues.messages id
      have moves : (own.map (book.moved numbers)).map Message.id = own.map Message.id := by
        rw [List.map_map]
        rfl
      rw [there, List.map_append, moves, same, sameHere, List.map_append, List.map_append]
      refine ⟨List.sublist_append_left _ _, ?_⟩
      rw [List.append_assoc]
      exact (List.Sublist.refl _).append (List.sublist_append_right _ _)

end Fork

/-- A document of another review is refused; merging one of the same review continued apart loses
nothing exactly where no resolution of the other would be lost and its read marks cover no reply
that it lacks. -/
theorem merge_loses_nothing_iff (reached : Reachable (fun _ _ => True) common)
    (continued : Continued common book) (continuedOther : Continued common other)
    (apart : ∀ id ∈ book.messages.map Message.id, id ∈ other.messages.map Message.id →
      id ∈ common.messages.map Message.id) :
    (∀ foreign : ReviewThreads, foreign.reviewUnit ≠ book.reviewUnit →
      book.merge foreign = .error "The threads belong to another review" book) ∧
    (book.merge other = .error "Too many messages" book ∨
      ∃ after, book.merge other = .ok () after) ∧
    ∀ after, book.merge other = .ok () after →
      (LosesNothing common book other after ↔
        KeepsResolutions common book other ∧ KeepsReadMarks book other) := by
  have sound := continued.continues reached.sound
  have soundOther := continuedOther.continues reached.sound
  have fork : Fork common book other :=
    ⟨sound.1, soundOther.1, reached.sound, sound.2, soundOther.2, apart⟩
  have unit : other.reviewUnit = book.reviewUnit :=
    (continuedOther.reviewUnit reached.sound).trans (continued.reviewUnit reached.sound).symm
  refine ⟨fun foreign differs => if_pos differs, ?_, fun after done => ?_⟩
  · rcases merge_cases book soundOther.1.ids soundOther.1.threads with
      ⟨e, failed, foreign | rfl⟩ | ⟨after, _, ok, -⟩
    · exact absurd unit foreign
    · exact .inl failed
    · exact .inr ⟨after, ok⟩
  · obtain ⟨-, numbers, merged⟩ := merge_eq_ok soundOther.1.ids soundOther.1.threads done
    exact fork.losesNothing_iff merged unit

section Samples

/-- A reply that the reviewer did not read yet. -/
def repliedHere : ReviewThreads :=
  started.after (.post (samplePost "a1" "Reply" .agent none (some "c1")) 0)

/-- Another reply, read in the other document. -/
def readThere : ReviewThreads :=
  (started.after (.post (samplePost "a2" "Reply" .agent none (some "c1")) 0)).after
    (.markRead "thread" 2)

def resolved : ReviewThreads := started.after (.setResolution "thread" .resolved)

def reopened : ReviewThreads := resolved.after (.setResolution "thread" .open)

theorem continued_step {operation : Operation} (continued : Continued common book)
    (alone : ∀ other, operation ≠ .merge other) : Continued common (book.after operation) :=
  .step operation continued fun other same => absurd same (alone other)

/-- The read mark of the other document covers a reply that it never showed, and a thread opened
again there stays resolved with its comment waiting. -/
theorem merge_covers_unread :
    (Continued started repliedHere ∧ Continued started readThere ∧
      "a1" ∈ (repliedHere.status "thread").unread ∧
      "a1" ∉ readThere.messages.map Message.id ∧
      "a1" ∉ ((repliedHere.after (.merge readThere)).status "thread").unread) ∧
    Reachable (fun _ _ => True) resolved ∧ Continued resolved reopened ∧
      (reopened.status "thread").pending = true ∧
      ((resolved.after (.merge reopened)).status "thread").pending = false := by
  have here : Continued started repliedHere := continued_step .start nofun
  have there : Continued started readThere := continued_step (continued_step .start nofun) nofun
  have again : Continued resolved reopened := continued_step .start nofun
  exact ⟨⟨here, there, by decide⟩, .step _ (reachable_started _) nofun nofun, again,
    by decide⟩

/-- A comment here and an answer there: nothing is lost. -/
theorem merge_keeps_comment_and_answer : ∃ after, kept.merge answeredOnce = .ok () after ∧
    LosesNothing started kept answeredOnce after := by
  have here : Continued started kept := continued_step .start nofun
  have there : Continued started answeredOnce := continued_step .start nofun
  obtain ⟨-, -, loses⟩ := merge_loses_nothing_iff (reachable_started _) here there
    (by decide)
  refine ⟨_, rfl, (loses _ rfl).mpr ⟨?_, ?_⟩⟩
  · intro id held thread mem memCommon
    have changed : ∀ thread ∈ kept.threads, thread ∉ started.threads := by decide
    exact absurd (mem_of_thread memCommon) (changed held (mem_of_thread mem))
  · intro id held thread mem _ unread
    have none : ∀ thread ∈ kept.threads, thread.unreadReplies = [] := by decide
    obtain ⟨reply, listed, -⟩ := unread
    rw [none held (mem_of_thread mem)] at listed
    cases listed

end Samples

end ReviewThreads

end ProgressiveReviewer.Threads
