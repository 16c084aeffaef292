import ProgressiveReviewer.Threads.Answering

/-! Two documents continued apart from a common one, and what merging keeps of either. -/

namespace ProgressiveReviewer.Threads

open Library

namespace ReviewThreads

variable {common book other after later : ReviewThreads} {numbers : MessageId → Option Nat}
  {id : ThreadId} {thread : ReviewThread}

/-! ## Continuing a document -/

/-- A document that still has what another had, with more messages after it. -/
structure Continues (book later : ReviewThreads) : Prop where
  sequence : book.sequence ≤ later.sequence
  messages : ∀ id, ∃ extra, later.messagesOf id = book.messagesOf id ++ extra ∧
    ∀ message ∈ extra, book.sequence < message.sequence
  thread : ∀ id held, book.thread id = some held → ∃ changed, later.thread id = some changed ∧
    held.seenReplyThrough ≤ changed.seenReplyThrough ∧ held.seenReplies ⊆ changed.seenReplies
  answered : ∀ id position, book.answered.lookup id = some position →
    ∃ further, later.answered.lookup id = some further ∧ position ≤ further

theorem Continues.refl (book : ReviewThreads) : Continues book book where
  sequence := le_rfl
  messages _ := ⟨[], (List.append_nil _).symm, nofun⟩
  thread _ held found := ⟨held, found, le_rfl, subset_rfl⟩
  answered _ position found := ⟨position, found, le_rfl⟩

theorem Continues.trans (first : Continues common book) (second : Continues book later) :
    Continues common later where
  sequence := first.sequence.trans second.sequence
  messages id := by
    obtain ⟨added, same, above⟩ := first.messages id
    obtain ⟨more, sameLater, aboveLater⟩ := second.messages id
    refine ⟨added ++ more, by rw [sameLater, same, List.append_assoc], fun message mem => ?_⟩
    rcases List.mem_append.mp mem with mem | mem
    · exact above message mem
    · exact first.sequence.trans_lt (aboveLater message mem)
  thread id held found := by
    obtain ⟨changed, there, seen, replies⟩ := first.thread id held found
    obtain ⟨last, still, seenLater, repliesLater⟩ := second.thread id changed there
    exact ⟨last, still, seen.trans seenLater, replies.trans repliesLater⟩
  answered id position found := by
    obtain ⟨further, there, le⟩ := first.answered id position found
    obtain ⟨last, still, leLater⟩ := second.answered id further there
    exact ⟨last, still, le.trans leLater⟩

theorem continues_posted {post : Post} {now : Nat} (posted : Posted book post now after) :
    Continues book after where
  sequence := posted.sequence ▸ Nat.le_succ _
  messages id := by
    refine ⟨_, posted.messagesOf id, fun message mem => ?_⟩
    split_ifs at mem
    · obtain rfl := List.mem_singleton.mp mem
      exact Nat.lt_succ_self _
    · cases mem
  thread id held found := by
    have view := posted.thread id
    rw [found] at view
    split_ifs at view
    · exact ⟨_, view, le_rfl, subset_rfl⟩
    · exact ⟨held, view, le_rfl, subset_rfl⟩
  answered id position found := ⟨position, posted.answered ▸ found, le_rfl⟩

theorem continues_attended (attended : Attended book after) : Continues book after where
  sequence := attended.sequence.ge
  messages id := ⟨[], by rw [attended.messagesOf, List.append_nil], nofun⟩
  thread id held found := by
    rcases attended.held id with ⟨missing, -⟩ | ⟨thread, changed, there, still, related⟩
    · rw [missing] at found
      cases found
    · obtain rfl := Option.some.inj (found.symm.trans there)
      exact ⟨changed, still, related.seen, related.replies⟩
  answered id position found := ⟨position, attended.answered ▸ found, le_rfl⟩

theorem continues_answered {position : Nat} (past : book.answeredThrough id ≤ position) :
    Continues book { book with answered := book.answered.insert id position } where
  sequence := le_rfl
  messages _ := ⟨[], (List.append_nil _).symm, nofun⟩
  thread _ held found := ⟨held, found, le_rfl, subset_rfl⟩
  answered name old found := by
    by_cases same : id = name
    · subst same
      refine ⟨position, SortedMap.lookup_insert_self, ?_⟩
      rwa [answeredThrough, found] at past
    · exact ⟨old, SortedMap.lookup_insert.trans ((if_neg same).trans found), le_rfl⟩

theorem continues_merged (merged : Merged book other after numbers) : Continues book after where
  sequence := by
    have counts := merged.numbering.counts
    omega
  messages id := by
    refine ⟨_, merged.messagesOf id, fun message mem => ?_⟩
    cases arriving : other.thread id with
    | none => rw [arriving] at mem; cases mem
    | some thread =>
      rw [arriving] at mem
      obtain ⟨original, -, sequence, number, rfl⟩ := mem_arrived.mp mem
      exact (merged.numbering.above number).1
  thread id held found := by
    have view := merged.thread id
    rw [found] at view
    cases arriving : other.thread id with
    | none => exact ⟨held, by rw [view, arriving], le_rfl, subset_rfl⟩
    | some thread =>
      rw [arriving] at view
      exact ⟨_, view, le_max_left _ _, Finset.subset_union_left⟩
  answered id position found := by
    rw [merged.answered]
    split
    · exact ⟨_, rfl, le_max_of_le_left (by rw [answeredThrough, found]; exact le_rfl)⟩
    · exact ⟨position, found, le_rfl⟩

theorem continues_after (sound : Sound book) (operation : Operation)
    (others : ∀ other, operation = .merge other → Sound other) :
    Continues book (book.after operation) := by
  cases operation with
  | post post now =>
    rcases book.after_post post now with same | ⟨-, posted, -⟩
    · rw [same]
      exact .refl book
    · exact continues_posted posted
  | answer post now =>
    rcases book.after_answer post now with same | ⟨comment, grown, -, -, came, same⟩
    · rw [same]
      exact .refl book
    · rw [same]
      rcases came with ⟨-, rfl⟩ | ⟨-, posted, -⟩
      · exact continues_answered (le_max_left _ _)
      · exact (continues_posted posted).trans (continues_answered (le_max_left _ _))
  | merge other =>
    rcases after_merge book (others other rfl) with same | ⟨numbers, -, merged⟩
    · rw [same]
      exact .refl book
    · exact continues_merged merged
  | markRead id through =>
    rcases book.after_markRead id through with same | attended
    · rw [same]
      exact .refl book
    · exact continues_attended attended
  | markRepliesRead ids => exact continues_attended (attended_markRepliesRead ids)
  | setResolution id resolution =>
    rcases book.after_setResolution id resolution with same | attended
    · rw [same]
      exact .refl book
    · exact continues_attended attended

/-- The documents that operations make of one, merging only documents reached by operations. -/
def Continued (common : ReviewThreads) : ReviewThreads → Prop :=
  Reaches ReviewThreads.after
    (fun _ operation => ∀ other, operation = .merge other → Reachable (fun _ _ => True) other) common

theorem Continued.continues (sound : Sound common) (continued : Continued common book) :
    Sound book ∧ Continues common book := by
  induction continued with
  | start => exact ⟨sound, .refl common⟩
  | step operation _ may ih =>
    have others : ∀ other, operation = .merge other → Sound other := fun other same =>
      (may other same).sound
    exact ⟨ih.1.step operation others, ih.2.trans (continues_after ih.1 operation others)⟩

theorem reviewUnit_after (sound : Sound book) (operation : Operation)
    (others : ∀ other, operation = .merge other → Sound other) :
    (book.after operation).reviewUnit = book.reviewUnit := by
  cases operation with
  | post post now =>
    rcases book.after_post post now with same | ⟨-, posted, -⟩
    · rw [same]
    · exact posted.reviewUnit
  | answer post now =>
    rcases book.after_answer post now with same | ⟨comment, grown, -, -, came, same⟩
    · rw [same]
    · rw [same]
      rcases came with ⟨-, rfl⟩ | ⟨-, posted, -⟩
      · rfl
      · exact posted.reviewUnit
  | merge other =>
    rcases after_merge book (others other rfl) with same | ⟨numbers, -, merged⟩
    · rw [same]
    · exact merged.reviewUnit
  | markRead id through =>
    rcases book.after_markRead id through with same | attended
    · rw [same]
    · exact attended.reviewUnit
  | markRepliesRead ids => rfl
  | setResolution id resolution =>
    rcases book.after_setResolution id resolution with same | attended
    · rw [same]
    · exact attended.reviewUnit

theorem Continued.reviewUnit (sound : Sound common) (continued : Continued common book) :
    book.reviewUnit = common.reviewUnit := by
  induction continued with
  | start => rfl
  | step operation continued may ih =>
    exact (reviewUnit_after (Continued.continues sound continued).1 operation
      fun other same => (may other same).sound).trans ih

/-! ## Merging again -/

section Again

variable (sound : Sound book) (otherSound : Sound other)
  (merged : Merged book other after numbers)
include sound otherSound merged

/-- Merging again numbers a message as it is numbered already. -/
theorem known_merged {message : Message} (mem : message ∈ other.messages) :
    after.known message.id = some (mergedSequence book.known numbers message.id) := by
  have ids := (sound.merged otherSound merged).ids
  by_cases listed : message.id ∈ book.messages.map Message.id
  · obtain ⟨kept, memKept, same⟩ := List.mem_map.mp listed
    have inAfter : kept ∈ after.messages := merged.messages.mem_iff.mpr (List.mem_append_left _ memKept)
    have known := known_of_mem sound.ids memKept
    rw [same] at known
    rw [merged.mergedSequence_known mem known, ← same]
    exact known_of_mem ids inAfter
  · obtain ⟨sequence, number⟩ := merged.numbers_of_lacking (mem_lacking.mpr ⟨mem, listed⟩)
    obtain ⟨thread, memThread, inside⟩ := mem_messages.mp mem
    have inAfter : { message with sequence } ∈ after.messages := merged.messages.mem_iff.mpr
      (List.mem_append_right _ (List.mem_flatMap.mpr ⟨thread, memThread,
        mem_arrivals.mpr ⟨message, inside, sequence, number, rfl⟩⟩))
    rw [Merged.mergedSequence_new number]
    exact known_of_mem ids inAfter

theorem mergeThread_merged (mem : thread ∈ other.threads) :
    mergeThread after.known (fun _ => none) other.answered after thread = after := by
  have held := otherSound.thread_self mem
  have view := merged.thread thread.id
  have covered := merged.answered thread.id
  rw [held] at view covered
  have again : ∀ position, translate after.known (fun _ => none) thread position =
      translate book.known numbers thread position := by
    intro position
    refine congrArg (fun sequences : List Nat => sequences.max?.getD 0)
      (List.map_congr_left fun message inside => ?_)
    have inOther := mem_messages.mpr ⟨thread, mem, List.mem_of_mem_filter inside⟩
    rw [mergedSequence, known_merged sound otherSound merged inOther]
    rfl
  have nothing : arrived (fun _ => none) thread = [] :=
    List.eq_nil_iff_forall_not_mem.mpr fun message arrives => by
      obtain ⟨_, _, _, number, _⟩ := mem_arrived.mp arrives
      cases number
  have unchanged : ∀ kept, after.thread thread.id = some kept →
      joined after.known (fun _ => none) thread (some kept) = kept := by
    intro kept found
    have positions : translate book.known numbers thread thread.seenReplyThrough ≤
        kept.seenReplyThrough ∧ thread.seenReplies ⊆ kept.seenReplies := by
      rw [found] at view
      obtain rfl := Option.some.inj view
      cases book.thread thread.id with
      | none => exact ⟨le_rfl, subset_rfl⟩
      | some earlier => exact ⟨le_max_right _ _, Finset.subset_union_right⟩
    simp only [joined, nothing, again, ne_eq, not_true_eq_false, false_and, if_false,
      List.append_nil, max_eq_left positions.1, Finset.union_eq_left.mpr positions.2]
  have same : after.changeThread thread.id (fun kept =>
      joined after.known (fun _ => none) thread (some kept)) = after := by
    rw [changeThread, Keyed.change_self view (unchanged _ view)]
  unfold mergeThread
  rw [view]
  dsimp only
  rw [same]
  cases position : other.answered.lookup thread.id with
  | none => rfl
  | some position' =>
    dsimp only
    rw [position] at covered
    dsimp only at covered
    rw [answeredThrough, covered, again, Option.getD_some, max_eq_left (le_max_right _ _),
      SortedMap.insert_lookup covered]

theorem merge_again (unit : other.reviewUnit = book.reviewUnit) :
    after.merge other = .ok () after := by
  have nothing : after.arriving other = [] := by
    have none : other.messages.filter (fun message => (after.known message.id).isNone) = [] := by
      refine List.filter_eq_nil_iff.mpr fun message mem => ?_
      rw [known_merged sound otherSound merged mem]
      exact Bool.false_ne_true
    rw [arriving, none]
    rfl
  have folds : ∀ threads : List ReviewThread, (∀ thread ∈ threads, thread ∈ other.threads) →
      threads.foldl (mergeThread after.known (fun _ => none) other.answered) after = after := by
    intro threads inside
    induction threads with
    | nil => rfl
    | cons thread rest ih =>
      rw [List.foldl_cons, mergeThread_merged sound otherSound merged (inside thread List.mem_cons_self)]
      exact ih fun later mem => inside later (List.mem_cons_of_mem _ mem)
  unfold merge
  rw [if_neg (not_not.mpr (unit.trans merged.reviewUnit.symm)), nothing]
  dsimp only [renumber]
  rw [folds other.threads fun _ mem => mem]

end Again

/-! ## Two documents continued apart -/

/-- Two documents that continue a common one with messages of their own. -/
structure Fork (common book other : ReviewThreads) : Prop where
  sound : Sound book
  soundOther : Sound other
  soundCommon : Sound common
  continues : Continues common book
  continuesOther : Continues common other
  apart : ∀ id ∈ book.messages.map Message.id, id ∈ other.messages.map Message.id →
    id ∈ common.messages.map Message.id

/-- A message of the other document, as the merge numbers it. -/
def moved (book : ReviewThreads) (numbers : MessageId → Option Nat) (message : Message) : Message :=
  { message with sequence := mergedSequence book.known numbers message.id }

theorem Continues.mem_messages (continues : Continues common book) (sound : Sound common)
    {message : Message} (mem : message ∈ common.messages) : message ∈ book.messages := by
  obtain ⟨thread, memThread, inside⟩ := ReviewThreads.mem_messages.mp mem
  obtain ⟨extra, same, -⟩ := continues.messages thread.id
  have listed : message ∈ book.messagesOf thread.id := by
    rw [same, messagesOf_some (sound.thread_self memThread)]
    exact List.mem_append_left _ inside
  exact mem_messages_of_messagesOf listed

namespace Fork

variable (fork : Fork common book other) {message : Message}
include fork

/-- A message that both hold is one of the common document. -/
theorem shared (mem : message ∈ other.messages) (listed : message.id ∈ book.messages.map Message.id) :
    message ∈ common.messages ∧ message ∈ book.messages ∧
      book.known message.id = some message.sequence := by
  obtain ⟨held, memCommon, same⟩ := List.mem_map.mp
    (fork.apart message.id listed (List.mem_map_of_mem mem))
  have inOther := fork.continuesOther.mem_messages fork.soundCommon memCommon
  obtain rfl := List.inj_on_of_nodup_map fork.soundOther.ids inOther mem same
  have inBook := fork.continues.mem_messages fork.soundCommon memCommon
  exact ⟨memCommon, inBook, known_of_mem fork.sound.ids inBook⟩

theorem own_after (mem : message ∈ other.messages)
    (absent : message.id ∉ book.messages.map Message.id) : common.sequence < message.sequence := by
  obtain ⟨thread, memThread, inside⟩ := mem_messages.mp mem
  obtain ⟨extra, same, above⟩ := fork.continuesOther.messages thread.id
  rw [messagesOf_some (fork.soundOther.thread_self memThread)] at same
  rcases List.mem_append.mp (same ▸ inside) with old | new
  · have inBook := fork.continues.mem_messages fork.soundCommon (mem_messages_of_messagesOf old)
    exact absurd (List.mem_map_of_mem inBook) absent
  · exact above message new

theorem comesBefore_iff {first second : Message} (mem : first ∈ other.messages)
    (memSecond : second ∈ other.messages) :
    book.comesBefore first second ↔ first.sequence ≤ second.sequence := by
  have cases : ∀ {message : Message}, message ∈ other.messages →
      (book.known message.id = some message.sequence ∧ message.sequence ≤ common.sequence) ∨
        book.known message.id = none ∧ common.sequence < message.sequence := by
    intro message mem
    by_cases listed : message.id ∈ book.messages.map Message.id
    · obtain ⟨inCommon, -, known⟩ := fork.shared mem listed
      exact .inl ⟨known, (fork.soundCommon.bounded message inCommon).2⟩
    · exact .inr ⟨known_eq_none.mpr listed, fork.own_after mem listed⟩
  unfold comesBefore
  rcases cases mem with ⟨known, below⟩ | ⟨known, above⟩ <;>
    rcases cases memSecond with ⟨knownSecond, belowSecond⟩ | ⟨knownSecond, aboveSecond⟩ <;>
    rw [known, knownSecond] <;> dsimp only
  · exact iff_of_true trivial (below.trans aboveSecond.le)
  · exact iff_of_false not_false (belowSecond.trans_lt above).not_ge

variable (merged : Merged book other after numbers)
include merged

theorem mergedSequence_le_iff {first second : Message} (mem : first ∈ other.messages)
    (memSecond : second ∈ other.messages) :
    mergedSequence book.known numbers first.id ≤ mergedSequence book.known numbers second.id ↔
      first.sequence ≤ second.sequence :=
  (ReviewThreads.comesBefore_iff fork.sound fork.soundOther merged mem memSecond).symm.trans
    (fork.comesBefore_iff mem memSecond)

theorem mergedSequence_shared (mem : message ∈ other.messages)
    (listed : message.id ∈ book.messages.map Message.id) :
    mergedSequence book.known numbers message.id = message.sequence :=
  merged.mergedSequence_known mem (fork.shared mem listed).2.2

omit fork in
theorem mergedSequence_own (mem : message ∈ other.messages)
    (absent : message.id ∉ book.messages.map Message.id) :
    book.sequence < mergedSequence book.known numbers message.id := by
  obtain ⟨sequence, number⟩ := merged.numbers_of_lacking (mem_lacking.mpr ⟨mem, absent⟩)
  rw [Merged.mergedSequence_new number]
  exact (merged.numbering.above number).1

/-- A translated position, with one that this document had reached, covers what it covered. -/
theorem covers_iff (position reached : Nat) (mem : thread ∈ other.threads)
    (inside : message ∈ thread.messages) (within : reached ≤ book.sequence)
    (before : reached ≤ position) :
    mergedSequence book.known numbers message.id ≤
        max reached (translate book.known numbers thread position) ↔
      message.sequence ≤ position := by
  have memOther : ∀ {message}, message ∈ thread.messages → message ∈ other.messages := fun inside =>
    mem_messages.mpr ⟨thread, mem, inside⟩
  refine ⟨fun covered => ?_, fun covered => le_max_of_le_right (le_translate inside covered)⟩
  rcases le_max_iff.mp covered with covered | covered
  · by_cases listed : message.id ∈ book.messages.map Message.id
    · rw [fork.mergedSequence_shared merged (memOther inside) listed] at covered
      exact covered.trans before
    · exact absurd (covered.trans within) (mergedSequence_own merged (memOther inside) listed).not_ge
  · rcases translate_cases book.known numbers thread position with
      ⟨latest, memLatest, below, same, -⟩ | ⟨-, same⟩
    · rw [same, fork.mergedSequence_le_iff merged (memOther inside) (memOther memLatest)] at covered
      exact covered.trans below
    · have positive : 0 < mergedSequence book.known numbers message.id := by
        by_cases listed : message.id ∈ book.messages.map Message.id
        · rw [fork.mergedSequence_shared merged (memOther inside) listed]
          exact (fork.soundOther.bounded message (memOther inside)).1
        · exact (Nat.zero_le _).trans_lt (mergedSequence_own merged (memOther inside) listed)
      exact absurd (same ▸ covered) positive.not_ge

/-- What a thread of the other document brings: its messages after the common ones. -/
theorem arrived_eq (held : other.thread id = some thread) : ∃ extra,
    thread.messages = common.messagesOf id ++ extra ∧
      arrived numbers thread = extra.map (book.moved numbers) ∧
      (common.messagesOf id).map (book.moved numbers) = common.messagesOf id ∧
      ∀ message ∈ extra, message.id ∉ book.messages.map Message.id := by
  obtain ⟨extra, same, above⟩ := fork.continuesOther.messages id
  rw [messagesOf_some held] at same
  have memOther : ∀ {message}, message ∈ thread.messages → message ∈ other.messages := fun inside =>
    mem_messages.mpr ⟨thread, mem_of_thread held, inside⟩
  have old : ∀ message ∈ common.messagesOf id, message ∈ thread.messages ∧
      message.id ∈ book.messages.map Message.id := fun message mem =>
    ⟨same ▸ List.mem_append_left _ mem, List.mem_map_of_mem
      (fork.continues.mem_messages fork.soundCommon (mem_messages_of_messagesOf mem))⟩
  have new : ∀ message ∈ extra, message ∈ thread.messages ∧
      message.id ∉ book.messages.map Message.id := by
    intro message mem
    have inside : message ∈ thread.messages := same ▸ List.mem_append_right _ mem
    refine ⟨inside, fun listed => ?_⟩
    have below := (fork.soundCommon.bounded message (fork.shared (memOther inside) listed).1).2
    exact absurd (above message mem) below.not_gt
  refine ⟨extra, same, ?_, ?_, fun message mem => (new message mem).2⟩
  · rw [fork.soundOther.arrived_eq merged (mem_of_thread held), arrivals, same,
      List.filterMap_append]
    have none : (common.messagesOf id).filterMap (fun message =>
        (numbers message.id).map fun sequence => { message with sequence }) = [] := by
      refine List.filterMap_eq_nil_iff.mpr fun message mem => ?_
      obtain ⟨inside, listed⟩ := old message mem
      rw [(merged.numbers_eq_none (memOther inside)).mpr listed]
      rfl
    rw [none, List.nil_append, ← List.filterMap_eq_map]
    refine List.filterMap_congr fun message mem => ?_
    obtain ⟨inside, absent⟩ := new message mem
    obtain ⟨sequence, number⟩ := merged.numbers_of_lacking (mem_lacking.mpr ⟨memOther inside, absent⟩)
    rw [number]
    simp only [Option.map_some, Function.comp_apply, moved, Merged.mergedSequence_new number]
  · refine (List.map_congr_left fun message mem => ?_).trans (List.map_id _)
    obtain ⟨inside, listed⟩ := old message mem
    rw [moved, fork.mergedSequence_shared merged (memOther inside) listed]
    rfl

end Fork

end ReviewThreads

end ProgressiveReviewer.Threads
