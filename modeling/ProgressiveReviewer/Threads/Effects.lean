import ProgressiveReviewer.Threads.Merge
import ProgressiveReviewer.Library.Runs

/-! What each operation makes of a document: the message a post adds, the merged document,
the threads whose attention changes. -/

namespace ProgressiveReviewer.Threads

open Library

namespace ReviewThreads

variable {book : ReviewThreads} {id : ThreadId} {thread : ReviewThread}

/-- The messages of a thread; one that does not exist has none. -/
def messagesOf (book : ReviewThreads) (id : ThreadId) : List Message :=
  (book.thread id).elim [] ReviewThread.messages

theorem messagesOf_some (held : book.thread id = some thread) :
    book.messagesOf id = thread.messages := by
  rw [messagesOf, held]; rfl

theorem messagesOf_none (missing : book.thread id = none) : book.messagesOf id = [] := by
  rw [messagesOf, missing]; rfl

theorem id_of_thread (held : book.thread id = some thread) : thread.id = id :=
  Keyed.key_of_find held

theorem mem_of_thread (held : book.thread id = some thread) : thread ∈ book.threads :=
  Keyed.mem_of_find held

theorem mem_messages {message : Message} :
    message ∈ book.messages ↔ ∃ thread ∈ book.threads, message ∈ thread.messages :=
  List.mem_flatMap

theorem mem_messages_of_messagesOf {message : Message} (mem : message ∈ book.messagesOf id) :
    message ∈ book.messages := by
  cases held : book.thread id with
  | none => rw [messagesOf_none held] at mem; cases mem
  | some thread =>
    exact mem_messages.mpr ⟨thread, mem_of_thread held, messagesOf_some held ▸ mem⟩

/-! ## Looking a message up -/

theorem message_eq_none {id : MessageId} :
    book.message id = none ↔ id ∉ book.messages.map Message.id := by
  unfold message
  cases held : book.threadForMessage id with
  | none =>
    have absent := List.find?_eq_none.mp held
    refine ⟨fun _ listed => ?_, fun _ => rfl⟩
    obtain ⟨found, mem, same⟩ := List.mem_map.mp listed
    obtain ⟨thread, memThread, mem⟩ := mem_messages.mp mem
    exact absent thread memThread (List.any_eq_true.mpr ⟨found, mem, decide_eq_true same⟩)
  | some thread =>
    have mem := List.mem_of_find?_eq_some held
    obtain ⟨found, inside, same⟩ := List.any_eq_true.mp
      (List.find?_some (p := fun thread : ReviewThread => thread.messages.any (·.id = id)) held)
    have listed : id ∈ book.messages.map Message.id :=
      List.mem_map.mpr ⟨found, mem_messages.mpr ⟨thread, mem, inside⟩, of_decide_eq_true same⟩
    refine ⟨fun absent => absurd listed fun _ => ?_, fun absent => absurd listed absent⟩
    exact List.find?_eq_none.mp absent found inside same

theorem mem_of_message {id : MessageId} {message : Message} (held : book.message id = some message) :
    message.id = id ∧ ∃ thread, book.threadForMessage id = some thread ∧
      thread ∈ book.threads ∧ message ∈ thread.messages := by
  obtain ⟨thread, holder, found⟩ := Option.bind_eq_some_iff.mp held
  exact ⟨by simpa using List.find?_some found, thread, holder, List.mem_of_find?_eq_some holder,
    List.mem_of_find?_eq_some found⟩

/-! ## Posting -/

/-- A message as its document receives it. -/
def stamped (book : ReviewThreads) (post : Post) (now : Nat) : Message :=
  { post.message with sequence := book.sequence + 1, postedAtMs := some now }

/-- A thread once a message came in, which may be its first. -/
def received (post : Post) (message : Message) : Option ReviewThread → Option ReviewThread
  | some thread => some (thread.receive message)
  | none => post.subject.map fun subject => ⟨post.threadId, subject, [message], .open, 0, ∅⟩

/-- What a document is once it received a new message. -/
structure Posted (book : ReviewThreads) (post : Post) (now : Nat) (after : ReviewThreads) :
    Prop where
  reviewUnit : after.reviewUnit = book.reviewUnit
  sequence : after.sequence = book.sequence + 1
  answered : after.answered = book.answered
  messages : after.messages.Perm (book.messages ++ [book.stamped post now])
  ids : (book.threads.map ReviewThread.id).Nodup → (after.threads.map ReviewThread.id).Nodup
  thread : ∀ id, after.thread id =
    if post.threadId = id then received post (book.stamped post now) (book.thread id)
    else book.thread id
  started : (after.thread post.threadId).isSome

variable {post : Post} {now : Nat} {after : ReviewThreads}

theorem posted_started {subject : ThreadSubject} (missing : book.thread post.threadId = none)
    (about : post.subject = some subject) : Posted book post now { book with
      threads := book.threads ++ [⟨post.threadId, subject, [book.stamped post now], .open, 0, ∅⟩]
      sequence := book.sequence + 1 } := by
  have thread : ∀ id, Keyed.find ReviewThread.id id
      (book.threads ++ [⟨post.threadId, subject, [book.stamped post now], .open, 0, ∅⟩]) =
        if post.threadId = id then received post (book.stamped post now) (book.thread id)
        else book.thread id := by
    intro id
    rw [Keyed.find_append, Keyed.find_cons, Keyed.find_nil]
    split_ifs with same
    · subst same
      rw [missing, received, about]
      exact congrArg (Option.or · _) missing
    · exact Option.or_none
  refine ⟨rfl, rfl, rfl, ?_, fun nodup => ?_, thread, ?_⟩
  · rw [messages, List.flatMap_append, List.flatMap_singleton]
    rfl
  · rw [List.map_append]
    refine nodup.append (List.nodup_singleton _) fun id mem new => ?_
    obtain rfl := List.mem_singleton.mp new
    obtain ⟨kept, mem, same⟩ := List.mem_map.mp mem
    exact Keyed.find_eq_none.mp missing kept mem same
  · refine (congrArg Option.isSome (thread post.threadId)).trans ?_
    rw [if_pos rfl, missing, received, about]
    rfl

theorem posted_continued (held : book.thread post.threadId = some thread) :
    Posted book post now { book.changeThread post.threadId (·.receive (book.stamped post now)) with
      sequence := book.sequence + 1 } := by
  have keeps : ∀ kept : ReviewThread, (kept.receive (book.stamped post now)).id = kept.id :=
    fun _ => rfl
  have changed : ∀ id, Keyed.find ReviewThread.id id
      (Keyed.change ReviewThread.id post.threadId (·.receive (book.stamped post now)) book.threads) =
        if post.threadId = id then received post (book.stamped post now) (book.thread id)
        else book.thread id := by
    intro id
    rw [Keyed.find_change keeps]
    split_ifs with same
    · subst same
      rw [held]
      exact congrArg (Option.map _) held
    · rfl
  refine ⟨rfl, rfl, rfl, Keyed.flatMap_change held rfl, fun nodup => ?_, changed, ?_⟩
  · rwa [changeThread, Keyed.map_key_change keeps]
  · refine (congrArg Option.isSome (changed post.threadId)).trans ?_
    rw [if_pos rfl, held]
    rfl

theorem Posted.messagesOf (posted : Posted book post now after) (id : ThreadId) :
    after.messagesOf id =
      book.messagesOf id ++ if post.threadId = id then [book.stamped post now] else [] := by
  have view := posted.thread id
  split_ifs at view ⊢ with here
  · subst here
    obtain ⟨thread, holds⟩ := Option.isSome_iff_exists.mp posted.started
    rw [holds] at view
    rw [messagesOf_some holds]
    cases held : book.thread post.threadId with
    | some kept =>
      rw [held] at view
      rw [messagesOf_some held, Option.some.inj view]
      rfl
    | none =>
      rw [held] at view
      obtain ⟨subject, -, rfl⟩ := Option.map_eq_some_iff.mp view.symm
      rw [messagesOf_none held]
      rfl
  · rw [List.append_nil, ReviewThreads.messagesOf, ReviewThreads.messagesOf, view]

theorem append_cases (book : ReviewThreads) (post : Post) (now : Nat) : (∃ e, book.append post now = .error e book) ∨
    ∃ after, book.append post now = .ok post.message.id after ∧ Posted book post now after ∧
      book.sequence < maxSequence := by
  unfold append
  cases counted : checkedAdd book.sequence with
  | error e => exact .inl ⟨e, rfl⟩
  | ok next =>
    obtain ⟨fits, rfl⟩ := checkedAdd_eq_ok.mp counted
    dsimp only
    split
    · next round thread about held =>
      split_ifs
      · exact .inl ⟨_, rfl⟩
      · exact .inr ⟨_, rfl, posted_continued held, fits⟩
    · exact .inl ⟨_, rfl⟩
    · next subject about missing => exact .inr ⟨_, rfl, posted_started missing about, fits⟩
    · next thread about held => exact .inr ⟨_, rfl, posted_continued held, fits⟩
    · exact .inl ⟨_, rfl⟩

/-- A post fails, repeats a message that is there, or adds a new one. -/
theorem post_cases (book : ReviewThreads) (post : Post) (now : Nat) :
    (∃ e, book.post post now = .error e book) ∨
    (∃ existing, book.message post.message.id = some existing ∧
      existing.sameContent post.message = true ∧
      (book.threadForMessage existing.id).map ReviewThread.id = some post.threadId ∧
      book.post post now = .ok existing.id book) ∨
    ∃ after, book.message post.message.id = none ∧
      book.post post now = .ok post.message.id after ∧ Posted book post now after ∧
        book.sequence < maxSequence := by
  unfold ReviewThreads.post
  cases held : book.message post.message.id with
  | some existing =>
    dsimp only
    split_ifs with same
    · exact .inr (.inl ⟨existing, rfl, same.1, same.2, rfl⟩)
    · exact .inl ⟨_, rfl⟩
  | none =>
    dsimp only
    split_ifs
    · exact .inl ⟨_, rfl⟩
    · rcases append_cases book post now with failed | ⟨after, ok, rest⟩
      · exact .inl failed
      · exact .inr (.inr ⟨after, rfl, ok, rest⟩)

theorem namedComment_eq_some {comment : Message} (named : book.namedComment post = some comment) :
    comment ∈ book.messagesOf post.threadId ∧ comment.author = .reviewer ∧
      post.message.inReplyTo = some comment.id := by
  obtain ⟨thread, held, found⟩ := Option.bind_eq_some_iff.mp named
  have same := List.find?_some found
  rw [Bool.and_eq_true, decide_eq_true_iff, decide_eq_true_iff] at same
  exact ⟨messagesOf_some held ▸ List.mem_of_find?_eq_some found, same.2, same.1.symm⟩

/-- An answer fails, or is posted and acknowledges the comment it names. -/
theorem answer_cases (book : ReviewThreads) (post : Post) (now : Nat) :
    (∃ e, book.answer post now = .error e book) ∨
    ∃ comment id after, post.message.author = .agent ∧ book.namedComment post = some comment ∧
      book.post post now = .ok id after ∧ book.answer post now = .ok id { after with
        answered := after.answered.insert post.threadId
          (max (after.answeredThrough post.threadId) comment.sequence) } := by
  unfold answer
  split_ifs with author
  · exact .inl ⟨_, rfl⟩
  · cases named : book.namedComment post with
    | none => exact .inl ⟨_, rfl⟩
    | some comment =>
      dsimp only
      rcases book.post_cases post now with ⟨e, failed⟩ | ⟨_, _, _, _, ok⟩ | ⟨_, _, ok, _⟩
      · exact .inl ⟨e, by rw [failed]⟩
      all_goals exact .inr ⟨comment, _, _, not_ne_iff.mp author, rfl, ok, by rw [ok]⟩

/-! ## Attention -/

/-- What a reviewer's attention changes of a thread. -/
structure Attends (sequence : Nat) (thread after : ReviewThread) : Prop where
  id : after.id = thread.id
  messages : after.messages = thread.messages
  seen : thread.seenReplyThrough ≤ after.seenReplyThrough
  bounded : after.seenReplyThrough ≤ max thread.seenReplyThrough sequence
  replies : thread.seenReplies ⊆ after.seenReplies
  read : ∀ id ∈ after.seenReplies, id ∈ thread.seenReplies ∨ id ∈ thread.messages.map Message.id

theorem Attends.refl (sequence : Nat) (thread : ReviewThread) : Attends sequence thread thread :=
  ⟨rfl, rfl, le_rfl, le_max_left _ _, subset_rfl, fun _ mem => .inl mem⟩

theorem Attends.trans {sequence : Nat} {first second third : ReviewThread}
    (before : Attends sequence first second) (after : Attends sequence second third) :
    Attends sequence first third where
  id := after.id.trans before.id
  messages := after.messages.trans before.messages
  seen := before.seen.trans after.seen
  bounded := after.bounded.trans (max_le before.bounded (le_max_right _ _))
  replies := before.replies.trans after.replies
  read id mem := by
    rcases after.read id mem with mem | mem
    · exact before.read id mem
    · exact .inr (before.messages ▸ mem)

theorem attends_markReplyRead {sequence : Nat} {id : MessageId} :
    Attends sequence thread (thread.markReplyRead id) := by
  unfold ReviewThread.markReplyRead
  split_ifs with unread
  · refine ⟨rfl, rfl, le_rfl, le_max_left _ _, Finset.subset_insert _ _, fun other mem => ?_⟩
    rcases Finset.mem_insert.mp mem with rfl | mem
    · obtain ⟨reply, mem, same⟩ := List.any_eq_true.mp unread
      exact .inr (List.mem_map.mpr ⟨reply, List.mem_of_mem_filter mem, of_decide_eq_true same⟩)
    · exact .inl mem
  · exact .refl _ _

theorem attends_markRepliesRead {sequence : Nat} (ids : List MessageId) :
    Attends sequence thread (ids.foldl ReviewThread.markReplyRead thread) := by
  induction ids generalizing thread with
  | nil => exact .refl _ _
  | cons id rest ih => exact attends_markReplyRead.trans ih

/-- What a reviewer's attention changes of a document. -/
structure Attended (book after : ReviewThreads) : Prop where
  reviewUnit : after.reviewUnit = book.reviewUnit
  sequence : after.sequence = book.sequence
  answered : after.answered = book.answered
  threads : List.Forall₂ (Attends book.sequence) book.threads after.threads

theorem attended_changeThread {f : ReviewThread → ReviewThread}
    (attends : ∀ thread, Attends book.sequence thread (f thread)) :
    Attended book (book.changeThread id f) :=
  ⟨rfl, rfl, rfl, Keyed.forall₂_change (Attends.refl _) attends⟩

theorem attended_markRepliesRead (ids : List MessageId) :
    Attended book (book.markRepliesRead ids) :=
  ⟨rfl, rfl, rfl, List.forall₂_map_right_iff.mpr
    (List.forall₂_same.mpr fun _ _ => attends_markRepliesRead ids)⟩

theorem setResolution_cases (book : ReviewThreads) (id : ThreadId) (resolution : Resolution) :
    (∃ e, book.setResolution id resolution = .error e book) ∨
      ∃ after, book.setResolution id resolution = .ok () after ∧ Attended book after := by
  unfold setResolution
  cases book.thread id with
  | none => exact .inl ⟨_, rfl⟩
  | some thread =>
    exact .inr ⟨_, rfl, attended_changeThread fun thread =>
      ⟨rfl, rfl, le_rfl, le_max_left _ _, subset_rfl, fun _ mem => .inl mem⟩⟩

theorem markRead_cases (book : ReviewThreads) (id : ThreadId) (through : Nat) :
    (∃ e, book.markRead id through = .error e book) ∨
      ∃ after, book.markRead id through = .ok () after ∧ Attended book after := by
  unfold markRead
  cases book.thread id with
  | none => exact .inl ⟨_, rfl⟩
  | some thread =>
    exact .inr ⟨_, rfl, attended_changeThread fun thread =>
      ⟨rfl, rfl, le_max_left _ _, max_le_max_left _ (min_le_right _ _), subset_rfl,
        fun _ mem => .inl mem⟩⟩

namespace Attended

variable (attended : Attended book after)
include attended

theorem messages : after.messages = book.messages := by
  have each := attended.threads
  unfold ReviewThreads.messages
  generalize book.sequence = sequence, book.threads = held, after.threads = changed at each ⊢
  induction each with
  | nil => rfl
  | cons related _ ih => rw [List.flatMap_cons, List.flatMap_cons, related.messages, ih]

theorem ids : after.threads.map ReviewThread.id = book.threads.map ReviewThread.id := by
  have each := attended.threads
  generalize book.sequence = sequence, book.threads = held, after.threads = changed at each ⊢
  induction each with
  | nil => rfl
  | cons related _ ih => rw [List.map_cons, List.map_cons, related.id, ih]

theorem each {changed : ReviewThread} (mem : changed ∈ after.threads) :
    ∃ held ∈ book.threads, Attends book.sequence held changed := by
  have each := attended.threads
  generalize book.sequence = sequence, book.threads = threads, after.threads = changed at each mem ⊢
  induction each with
  | nil => cases mem
  | cons related _ ih =>
    rcases List.mem_cons.mp mem with rfl | mem
    · exact ⟨_, List.mem_cons_self, related⟩
    · obtain ⟨held, listed, related⟩ := ih mem
      exact ⟨held, List.mem_cons_of_mem _ listed, related⟩

theorem held (id : ThreadId) : (book.thread id = none ∧ after.thread id = none) ∨
    ∃ held changed, book.thread id = some held ∧ after.thread id = some changed ∧
      Attends book.sequence held changed :=
  Keyed.find_forall₂ (fun related => related.id) attended.threads

theorem messagesOf (id : ThreadId) : after.messagesOf id = book.messagesOf id := by
  rcases attended.held id with ⟨before, after⟩ | ⟨held, changed, before, after, related⟩
  · rw [messagesOf_none before, messagesOf_none after]
  · rw [messagesOf_some before, messagesOf_some after, related.messages]

end Attended

/-! ## Merging -/

theorem known_eq_none {id : MessageId} :
    book.known id = none ↔ id ∉ book.messages.map Message.id := by
  simp [known]

theorem known_eq_some {id : MessageId} {sequence : Nat} (held : book.known id = some sequence) :
    ∃ message ∈ book.messages, message.id = id ∧ message.sequence = sequence := by
  obtain ⟨message, found, rfl⟩ := Option.map_eq_some_iff.mp held
  exact ⟨message, List.mem_reverse.mp (List.mem_of_find?_eq_some found),
    by simpa using List.find?_some found, rfl⟩

theorem known_of_mem (nodup : (book.messages.map Message.id).Nodup) {message : Message}
    (mem : message ∈ book.messages) : book.known message.id = some message.sequence := by
  cases held : book.known message.id with
  | none => exact absurd (List.mem_map_of_mem mem) (known_eq_none.mp held)
  | some sequence =>
    obtain ⟨other, memOther, same, rfl⟩ := known_eq_some held
    rw [List.inj_on_of_nodup_map nodup memOther mem same]

/-- The messages that a document would bring to another. -/
def lacking (book other : ReviewThreads) : List Message :=
  other.messages.filter fun message => (book.known message.id).isNone

variable {other : ReviewThreads} {numbers : MessageId → Option Nat}

theorem mem_lacking {message : Message} : message ∈ book.lacking other ↔
    message ∈ other.messages ∧ message.id ∉ book.messages.map Message.id := by
  rw [lacking, List.mem_filter, Option.isNone_iff_eq_none, known_eq_none]

/-- What a document is once another was merged into it. -/
structure Merged (book other after : ReviewThreads) (numbers : MessageId → Option Nat) : Prop where
  reviewUnit : after.reviewUnit = book.reviewUnit
  numbering : Numbering book.sequence after.sequence (book.lacking other) numbers
  messages : after.messages.Perm (book.messages ++ other.threads.flatMap (arrivals numbers))
  ids : (book.threads.map ReviewThread.id).Nodup → (after.threads.map ReviewThread.id).Nodup
  thread : ∀ id, after.thread id =
    match other.thread id with
    | some thread => some (joined book.known numbers thread (book.thread id))
    | none => book.thread id
  answered : ∀ id, after.answered.lookup id =
    match other.thread id, other.answered.lookup id with
    | some thread, some position =>
      some (max (book.answeredThrough id) (translate book.known numbers thread position))
    | _, _ => book.answered.lookup id

theorem merge_cases (book : ReviewThreads) (ids : (other.messages.map Message.id).Nodup)
    (threads : (other.threads.map ReviewThread.id).Nodup) :
    (∃ e, book.merge other = .error e book ∧
      (other.reviewUnit ≠ book.reviewUnit ∨ e = "Too many messages")) ∨
      ∃ after numbers, book.merge other = .ok () after ∧ other.reviewUnit = book.reviewUnit ∧
        Merged book other after numbers := by
  unfold merge
  split_ifs with foreign
  · exact .inl ⟨_, rfl, .inl foreign⟩
  · split
    · next e full =>
      exact .inl ⟨e, rfl, .inr (renumber_eq_error full)⟩
    · next sequence numbers done =>
      refine .inr ⟨_, numbers, rfl, not_ne_iff.mp foreign, reviewUnit_mergeThreads,
        numbering_of_renumber (ids.sublist (List.filter_sublist.map _)) done, ?_,
        nodup_mergeThreads, fun id => thread_mergeThreads threads,
        fun id => lookup_mergeThreads threads⟩
      refine messages_mergeThreads.trans (List.Perm.append_left _ ?_)
      exact List.Perm.flatMap_left _ fun thread _ => arrived_perm

theorem merge_eq_ok (ids : (other.messages.map Message.id).Nodup)
    (threads : (other.threads.map ReviewThread.id).Nodup)
    (done : book.merge other = .ok () after) :
    other.reviewUnit = book.reviewUnit ∧ ∃ numbers, Merged book other after numbers := by
  rcases merge_cases book ids threads with ⟨e, failed, -⟩ | ⟨_, numbers, ok, unit, merged⟩
  · cases failed.symm.trans done
  · cases ok.symm.trans done
    exact ⟨unit, numbers, merged⟩

theorem flatMap_arrivals : other.threads.flatMap (arrivals numbers) =
    other.messages.filterMap fun message =>
      (numbers message.id).map fun sequence => { message with sequence } := by
  rw [ReviewThreads.messages, List.filterMap_flatMap]
  rfl

namespace Merged

variable (merged : Merged book other after numbers)
include merged

theorem numbers_eq_none {message : Message} (mem : message ∈ other.messages) :
    numbers message.id = none ↔ message.id ∈ book.messages.map Message.id := by
  rw [← Option.not_isSome_iff_eq_none, merged.numbering.covers, not_iff_comm]
  constructor
  · intro absent
    exact List.mem_map_of_mem (mem_lacking.mpr ⟨mem, absent⟩)
  · intro listed
    obtain ⟨lacked, memLacked, same⟩ := List.mem_map.mp listed
    exact same ▸ (mem_lacking.mp memLacked).2

theorem numbers_of_lacking {message : Message} (mem : message ∈ book.lacking other) :
    ∃ sequence, numbers message.id = some sequence :=
  Option.isSome_iff_exists.mp ((merged.numbering.covers _).mpr (List.mem_map_of_mem mem))

/-- The messages that arrive keep the order they have in the other document. -/
theorem pairwise_arrivals
    (increasing : thread.messages.Pairwise fun a b => a.sequence < b.sequence)
    (inside : ∀ message ∈ thread.messages, message ∈ other.messages) :
    (arrivals numbers thread).Pairwise fun a b => a.sequence < b.sequence := by
  have lacks : ∀ {message : Message} {number}, message ∈ thread.messages →
      numbers message.id = some number → message ∈ book.lacking other := by
    intro message number mem found
    refine mem_lacking.mpr ⟨inside message mem, fun listed => ?_⟩
    rw [(merged.numbers_eq_none (inside message mem)).mpr listed] at found
    cases found
  refine List.pairwise_filterMap.mpr (increasing.imp_of_mem ?_)
  intro a b memA memB before first foundA second foundB
  obtain ⟨sequence, numberA, rfl⟩ := Option.map_eq_some_iff.mp foundA
  obtain ⟨later, numberB, rfl⟩ := Option.map_eq_some_iff.mp foundB
  exact merged.numbering.ordered (lacks memA numberA) (lacks memB numberB) before numberA numberB

theorem arrived_eq (increasing : thread.messages.Pairwise fun a b => a.sequence < b.sequence)
    (inside : ∀ message ∈ thread.messages, message ∈ other.messages) :
    arrived numbers thread = arrivals numbers thread :=
  List.Pairwise.insertionSort_eq
    ((merged.pairwise_arrivals increasing inside).imp fun before => before.le)

theorem messagesOf (id : ThreadId) : after.messagesOf id =
    book.messagesOf id ++ (other.thread id).elim [] (arrived numbers) := by
  have view := merged.thread id
  cases arriving : other.thread id with
  | none =>
    rw [arriving] at view
    exact (congrArg (Option.elim · [] ReviewThread.messages) view).trans (List.append_nil _).symm
  | some thread =>
    rw [arriving] at view
    rw [messagesOf_some view]
    cases held : book.thread id with
    | none => rw [messagesOf_none held]; rfl
    | some kept => rw [messagesOf_some held]; rfl

theorem mergedSequence_known {message : Message} {sequence : Nat} (mem : message ∈ other.messages)
    (held : book.known message.id = some sequence) :
    mergedSequence book.known numbers message.id = sequence := by
  have listed : message.id ∈ book.messages.map Message.id := by
    by_contra absent
    rw [known_eq_none.mpr absent] at held
    cases held
  rw [mergedSequence, (merged.numbers_eq_none mem).mpr listed, held]
  rfl

omit merged in
theorem mergedSequence_new {id : MessageId} {sequence : Nat} (found : numbers id = some sequence) :
    mergedSequence book.known numbers id = sequence := by
  rw [mergedSequence, found]
  rfl

end Merged

end ReviewThreads

end ProgressiveReviewer.Threads
