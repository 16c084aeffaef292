import ProgressiveReviewer.Threads.Effects

/-! Every document that the operations reach keeps its identities and sequences in order. -/

namespace ProgressiveReviewer.Threads

open Library

inductive Operation where
  | post (post : Post) (now : Nat)
  | answer (post : Post) (now : Nat)
  | merge (other : ReviewThreads)
  | markRead (id : ThreadId) (through : Nat)
  | markRepliesRead (ids : List MessageId)
  | setResolution (id : ThreadId) (resolution : Resolution)

/-- The error of an operation, if any, and the document it leaves. -/
def outcome {α : Type} : EStateM.Result String ReviewThreads α → Option String × ReviewThreads
  | .ok _ book => (none, book)
  | .error e book => (some e, book)

namespace ReviewThreads

def perform (book : ReviewThreads) : Operation → Option String × ReviewThreads
  | .post post now => outcome (book.post post now)
  | .answer post now => outcome (book.answer post now)
  | .merge other => outcome (book.merge other)
  | .markRead id through => outcome (book.markRead id through)
  | .markRepliesRead ids => (none, book.markRepliesRead ids)
  | .setResolution id resolution => outcome (book.setResolution id resolution)

def after (book : ReviewThreads) (operation : Operation) : ReviewThreads :=
  (book.perform operation).2

/-- The documents reached by operations, merging only documents reached so themselves, each
merge as allowed. -/
inductive Reachable (allowed : ReviewThreads → ReviewThreads → Prop) : ReviewThreads → Prop
  | new (unit : ReviewUnit) : Reachable allowed (.new unit)
  | step {book : ReviewThreads} (operation : Operation) (reached : Reachable allowed book)
      (others : ∀ other, operation = .merge other → Reachable allowed other)
      (may : ∀ other, operation = .merge other → allowed book other) :
      Reachable allowed (book.after operation)

variable {book other after : ReviewThreads} {numbers : MessageId → Option Nat} {post : Post}
  {now : Nat}

theorem Reachable.merge {allowed : ReviewThreads → ReviewThreads → Prop}
    (reached : Reachable allowed book) (otherReached : Reachable allowed other)
    (may : allowed book other) : Reachable allowed (book.after (.merge other)) := by
  refine .step _ reached (fun named same => ?_) fun named same => ?_
  · cases same
    exact otherReached
  · cases same
    exact may

theorem error_leaves_book (operation : Operation) {e : String}
    (failed : (book.perform operation).1 = some e) : book.after operation = book := by
  have unchanged : ∀ {α : Type} {result : EStateM.Result String ReviewThreads α},
      (∃ e, result = .error e book) ∨ (∃ a after, result = .ok a after) →
        (outcome result).1 = some e → (outcome result).2 = book := by
    rintro α _ (⟨_, rfl⟩ | ⟨_, _, rfl⟩) failed
    · rfl
    · cases failed
  cases operation with
  | post post now =>
    refine unchanged ?_ failed
    rcases book.post_cases post now with failed | ⟨_, _, _, _, ok⟩ | ⟨_, _, ok, _⟩
    · exact .inl failed
    · exact .inr ⟨_, _, ok⟩
    · exact .inr ⟨_, _, ok⟩
  | answer post now =>
    refine unchanged ?_ failed
    rcases book.answer_cases post now with failed | ⟨_, id, _, _, _, _, ok⟩
    · exact .inl failed
    · exact .inr ⟨id, _, ok⟩
  | merge other =>
    refine unchanged ?_ failed
    unfold merge
    split_ifs
    · exact .inl ⟨_, rfl⟩
    · split
      · exact .inl ⟨_, rfl⟩
      · exact .inr ⟨_, _, rfl⟩
  | markRead id through =>
    refine unchanged ?_ failed
    rcases book.markRead_cases id through with failed | ⟨after, ok, -⟩
    · exact .inl failed
    · exact .inr ⟨_, after, ok⟩
  | markRepliesRead ids => cases failed
  | setResolution id resolution =>
    refine unchanged ?_ failed
    rcases book.setResolution_cases id resolution with failed | ⟨after, ok, -⟩
    · exact .inl failed
    · exact .inr ⟨_, after, ok⟩

/-! What each operation leaves: the document as it was, or with its effect. -/

theorem after_post (book : ReviewThreads) (post : Post) (now : Nat) :
    book.after (.post post now) = book ∨ book.message post.message.id = none ∧
      Posted book post now (book.after (.post post now)) ∧ book.sequence < maxSequence := by
  have left : book.after (.post post now) = (outcome (book.post post now)).2 := rfl
  rw [left]
  rcases book.post_cases post now with
    ⟨_, failed⟩ | ⟨_, _, _, _, repeated⟩ | ⟨grown, fresh, ok, posted, fits⟩
  · exact .inl (by rw [failed]; rfl)
  · exact .inl (by rw [repeated]; rfl)
  · exact .inr ⟨fresh, by rw [ok]; exact posted, fits⟩

theorem after_answer (book : ReviewThreads) (post : Post) (now : Nat) :
    book.after (.answer post now) = book ∨
      ∃ comment grown, post.message.author = .agent ∧ book.namedComment post = some comment ∧
        ((∃ existing, book.message post.message.id = some existing ∧
          existing.sameContent post.message = true ∧
          (book.threadForMessage existing.id).map ReviewThread.id = some post.threadId) ∧
            grown = book ∨
          book.message post.message.id = none ∧ Posted book post now grown ∧
            book.sequence < maxSequence) ∧
        book.after (.answer post now) = { grown with
          answered := grown.answered.insert post.threadId
            (max (grown.answeredThrough post.threadId) comment.sequence) } := by
  have left : book.after (.answer post now) = (outcome (book.answer post now)).2 := rfl
  rw [left]
  rcases book.answer_cases post now with
    ⟨_, failed⟩ | ⟨comment, id, grown, author, named, posting, ok⟩
  · exact .inl (by rw [failed]; rfl)
  · refine .inr ⟨comment, grown, author, named, ?_, by rw [ok]; rfl⟩
    rcases book.post_cases post now with
      ⟨_, failed⟩ | ⟨existing, held, same, inside, repeated⟩ | ⟨grown, fresh, added, posted, fits⟩
    · cases failed.symm.trans posting
    · cases repeated.symm.trans posting
      exact .inl ⟨⟨existing, held, same, inside⟩, rfl⟩
    · cases added.symm.trans posting
      exact .inr ⟨fresh, posted, fits⟩

theorem after_markRead (book : ReviewThreads) (id : ThreadId) (through : Nat) :
    book.after (.markRead id through) = book ∨ Attended book (book.after (.markRead id through)) := by
  have left : book.after (.markRead id through) = (outcome (book.markRead id through)).2 := rfl
  rw [left]
  rcases book.markRead_cases id through with ⟨_, failed⟩ | ⟨changed, ok, attended⟩
  · exact .inl (by rw [failed]; rfl)
  · exact .inr (by rw [ok]; exact attended)

theorem after_setResolution (book : ReviewThreads) (id : ThreadId) (resolution : Resolution) :
    book.after (.setResolution id resolution) = book ∨
      Attended book (book.after (.setResolution id resolution)) := by
  have left : book.after (.setResolution id resolution) = (outcome (book.setResolution id resolution)).2 := rfl
  rw [left]
  rcases book.setResolution_cases id resolution with ⟨_, failed⟩ | ⟨changed, ok, attended⟩
  · exact .inl (by rw [failed]; rfl)
  · exact .inr (by rw [ok]; exact attended)

/-- Identities and sequences in order, and no position past the last message. -/
structure Sound (book : ReviewThreads) : Prop where
  threads : (book.threads.map ReviewThread.id).Nodup
  ids : (book.messages.map Message.id).Nodup
  sequences : (book.messages.map Message.sequence).Nodup
  increasing : ∀ thread ∈ book.threads,
    thread.messages.Pairwise fun a b => a.sequence < b.sequence
  bounded : ∀ message ∈ book.messages, 0 < message.sequence ∧ message.sequence ≤ book.sequence
  seen : ∀ thread ∈ book.threads, thread.seenReplyThrough ≤ book.sequence
  read : ∀ thread ∈ book.threads, ∀ id ∈ thread.seenReplies, id ∈ book.messages.map Message.id
  covered : ∀ {id position}, book.answered.lookup id = some position → position ≤ book.sequence

theorem sound_new (unit : ReviewUnit) : Sound (.new unit) where
  threads := List.nodup_nil
  ids := List.nodup_nil
  sequences := List.nodup_nil
  increasing := nofun
  bounded := nofun
  seen := nofun
  read := nofun
  covered := nofun

theorem after_merge (book : ReviewThreads) {other : ReviewThreads} (sound : Sound other) :
    book.after (.merge other) = book ∨ ∃ numbers, other.reviewUnit = book.reviewUnit ∧
      Merged book other (book.after (.merge other)) numbers := by
  have left : book.after (.merge other) = (outcome (book.merge other)).2 := rfl
  rw [left]
  rcases merge_cases book sound.ids sound.threads with
    ⟨_, failed, -⟩ | ⟨merged, numbers, ok, unit, effect⟩
  · exact .inl (by rw [failed]; rfl)
  · exact .inr ⟨numbers, unit, by rw [ok]; exact effect⟩

namespace Sound

variable (sound : Sound book)
include sound

theorem thread_self {thread : ReviewThread} (mem : thread ∈ book.threads) :
    book.thread thread.id = some thread :=
  Keyed.find_self sound.threads mem

theorem answeredThrough_le (id : ThreadId) : book.answeredThrough id ≤ book.sequence := by
  unfold answeredThrough
  cases found : book.answered.lookup id with
  | none => exact Nat.zero_le _
  | some position => exact sound.covered found

/-- More messages, with new identities and later sequences. -/
theorem grow {added : List Message} (threads : (after.threads.map ReviewThread.id).Nodup)
    (messages : after.messages.Perm (book.messages ++ added))
    (later : book.sequence ≤ after.sequence)
    (ids : (added.map Message.id).Nodup)
    (new : ∀ message ∈ added, message.id ∉ book.messages.map Message.id)
    (sequences : (added.map Message.sequence).Nodup)
    (bounds : ∀ message ∈ added,
      book.sequence < message.sequence ∧ message.sequence ≤ after.sequence)
    (increasing : ∀ thread ∈ after.threads,
      thread.messages.Pairwise fun a b => a.sequence < b.sequence)
    (seen : ∀ thread ∈ after.threads, thread.seenReplyThrough ≤ after.sequence)
    (read : ∀ thread ∈ after.threads, ∀ id ∈ thread.seenReplies,
      id ∈ book.messages.map Message.id ∨ id ∈ added.map Message.id)
    (covered : ∀ {id position}, after.answered.lookup id = some position →
      position ≤ after.sequence) : Sound after := by
  have perm : ∀ {β : Type} (f : Message → β),
      (after.messages.map f).Perm (book.messages.map f ++ added.map f) := fun f =>
    (messages.map f).trans (by rw [List.map_append])
  refine ⟨threads, ?_, ?_, increasing, fun message mem => ?_, seen, fun thread mem id held => ?_,
    covered⟩
  · refine (perm _).nodup_iff.mpr (sound.ids.append ids fun id old added => ?_)
    obtain ⟨message, mem, rfl⟩ := List.mem_map.mp added
    exact new message mem old
  · refine (perm _).nodup_iff.mpr (sound.sequences.append sequences fun sequence old added => ?_)
    obtain ⟨earlier, mem, rfl⟩ := List.mem_map.mp old
    obtain ⟨message, memAdded, same⟩ := List.mem_map.mp added
    have below := (sound.bounded earlier mem).2
    have above := (bounds message memAdded).1
    omega
  · rcases List.mem_append.mp (messages.mem_iff.mp mem) with mem | mem
    · exact ⟨(sound.bounded message mem).1, (sound.bounded message mem).2.trans later⟩
    · exact ⟨(Nat.zero_le _).trans_lt (bounds message mem).1, (bounds message mem).2⟩
  · exact (perm _).mem_iff.mpr (List.mem_append.mpr (read thread mem id held))

theorem posted (posted : Posted book post now after)
    (fresh : book.message post.message.id = none) : Sound after := by
  have nodup := posted.ids sound.threads
  have each : ∀ thread ∈ after.threads, thread ∈ book.threads ∨
      received post (book.stamped post now) (book.thread thread.id) = some thread := by
    intro thread mem
    have held := Keyed.find_self nodup mem
    have view := posted.thread thread.id
    rw [show after.thread thread.id = some thread from held] at view
    split_ifs at view with here
    · exact .inr view.symm
    · exact .inl (mem_of_thread view.symm)
  have inThread : ∀ thread ∈ after.threads, thread ∈ book.threads ∨
      (∃ kept ∈ book.threads, thread = kept.receive (book.stamped post now)) ∨
      thread.messages = [book.stamped post now] ∧ thread.seenReplyThrough = 0 ∧
        thread.seenReplies = ∅ := by
    intro thread mem
    refine (each thread mem).imp_right fun came => ?_
    cases held : book.thread thread.id with
    | some kept =>
      rw [held] at came
      exact .inl ⟨kept, mem_of_thread held, (Option.some.inj came).symm⟩
    | none =>
      rw [held] at came
      obtain ⟨subject, -, rfl⟩ := Option.map_eq_some_iff.mp came
      exact .inr ⟨rfl, rfl, rfl⟩
  have later : book.sequence ≤ after.sequence := posted.sequence ▸ Nat.le_succ _
  refine sound.grow nodup posted.messages later (List.nodup_singleton _) ?_
    (List.nodup_singleton _) ?_ ?_ ?_ ?_ ?_
  · intro message mem
    obtain rfl := List.mem_singleton.mp mem
    exact message_eq_none.mp fresh
  · intro message mem
    obtain rfl := List.mem_singleton.mp mem
    exact ⟨Nat.lt_succ_self _, posted.sequence.ge⟩
  · intro thread mem
    rcases inThread thread mem with mem | ⟨kept, held, rfl⟩ | ⟨same, -⟩
    · exact sound.increasing thread mem
    · refine List.pairwise_append.mpr ⟨sound.increasing kept held, List.pairwise_singleton _ _, ?_⟩
      intro earlier memEarlier message memNew
      obtain rfl := List.mem_singleton.mp memNew
      exact Nat.lt_succ_of_le (sound.bounded earlier (mem_messages.mpr ⟨kept, held, memEarlier⟩)).2
    · rw [same]
      exact List.pairwise_singleton _ _
  · intro thread mem
    rcases inThread thread mem with mem | ⟨kept, held, rfl⟩ | ⟨-, same, -⟩
    · exact (sound.seen thread mem).trans later
    · exact (sound.seen kept held).trans later
    · rw [same]
      exact Nat.zero_le _
  · intro thread mem id replied
    rcases inThread thread mem with mem | ⟨kept, held, rfl⟩ | ⟨-, -, none⟩
    · exact .inl (sound.read thread mem id replied)
    · exact .inl (sound.read kept held id replied)
    · rw [none] at replied
      exact absurd replied (Finset.notMem_empty id)
  · intro id position found
    rw [posted.answered] at found
    exact (sound.covered found).trans later

theorem attended (attended : Attended book after) : Sound after := by
  refine sound.grow (attended.ids ▸ sound.threads)
    (show after.messages.Perm (book.messages ++ []) by rw [attended.messages, List.append_nil]) attended.sequence.ge .nil nofun .nil nofun ?_ ?_ ?_ ?_
  · intro thread mem
    obtain ⟨held, listed, related⟩ := attended.each mem
    exact related.messages ▸ sound.increasing held listed
  · intro thread mem
    obtain ⟨held, listed, related⟩ := attended.each mem
    rw [attended.sequence]
    exact related.bounded.trans (max_le (sound.seen held listed) le_rfl)
  · intro thread mem id read
    obtain ⟨held, listed, related⟩ := attended.each mem
    rcases related.read id read with old | inside
    · exact .inl (sound.read held listed id old)
    · obtain ⟨message, within, rfl⟩ := List.mem_map.mp inside
      exact .inl (List.mem_map_of_mem (mem_messages.mpr ⟨held, listed, within⟩))
  · intro id position found
    rw [attended.answered] at found
    exact attended.sequence ▸ sound.covered found

theorem answered {id : ThreadId} {position : Nat} (within : position ≤ book.sequence) :
    Sound { book with answered := book.answered.insert id position } := by
  refine { sound with covered := fun {other found} held => ?_ }
  rw [SortedMap.lookup_insert] at held
  split_ifs at held
  · exact Option.some.inj held ▸ within
  · exact sound.covered held

theorem mergedSequence_le (merged : Merged book other after numbers) (id : MessageId) :
    mergedSequence book.known numbers id ≤ after.sequence := by
  unfold mergedSequence
  cases found : numbers id with
  | some sequence => exact (merged.numbering.above found).2
  | none =>
    cases held : book.known id with
    | none => exact Nat.zero_le _
    | some sequence =>
      obtain ⟨message, mem, -, rfl⟩ := known_eq_some held
      have counts := merged.numbering.counts
      exact (sound.bounded message mem).2.trans (by omega)

theorem arrived_eq (merged : Merged other book after numbers) {thread : ReviewThread}
    (mem : thread ∈ book.threads) : arrived numbers thread = arrivals numbers thread :=
  merged.arrived_eq (sound.increasing thread mem) fun _ inside => mem_messages.mpr ⟨thread, mem, inside⟩

omit sound in
theorem merged (sound : Sound book) (otherSound : Sound other)
    (merged : Merged book other after numbers) : Sound after := by
  have counts := merged.numbering.counts
  have later : book.sequence ≤ after.sequence := by omega
  have added : ∀ {message : Message}, message ∈ other.threads.flatMap (arrivals numbers) →
      ∃ original ∈ other.messages, ∃ sequence, numbers original.id = some sequence ∧
        message = { original with sequence } := by
    intro message mem
    obtain ⟨thread, memThread, mem⟩ := List.mem_flatMap.mp mem
    obtain ⟨original, inside, arrived⟩ := mem_arrivals.mp mem
    exact ⟨original, mem_messages.mpr ⟨thread, memThread, inside⟩, arrived⟩
  -- A thread of the merged document is a kept one, or one that the other brought a part of.
  have each : ∀ thread ∈ after.threads, thread ∈ book.threads ∨ ∃ arriving ∈ other.threads,
      thread = joined book.known numbers arriving (book.thread arriving.id) := by
    intro thread mem
    have view := merged.thread thread.id
    rw [show after.thread thread.id = some thread from
      Keyed.find_self (merged.ids sound.threads) mem] at view
    cases held : other.thread thread.id with
    | none =>
      rw [held] at view
      exact .inl (mem_of_thread view.symm)
    | some arriving =>
      rw [held] at view
      exact .inr ⟨arriving, mem_of_thread held, id_of_thread held ▸ Option.some.inj view⟩
  have translated : ∀ (thread : ReviewThread) position,
      translate book.known numbers thread position ≤ after.sequence := fun thread position =>
    translate_le fun message _ _ => sound.mergedSequence_le merged message.id
  refine sound.grow (merged.ids sound.threads) merged.messages later ?_ ?_ ?_ ?_ ?_ ?_ ?_ ?_
  · rw [flatMap_arrivals]
    refine List.pairwise_map.mpr (List.pairwise_filterMap.mpr ?_)
    refine (List.pairwise_map.mp otherSound.ids).imp fun {a b} distinct first foundA second foundB => ?_
    obtain ⟨sequence, -, rfl⟩ := Option.map_eq_some_iff.mp foundA
    obtain ⟨number, -, rfl⟩ := Option.map_eq_some_iff.mp foundB
    exact distinct
  · intro message mem listed
    obtain ⟨original, memOther, sequence, found, rfl⟩ := added mem
    rw [(merged.numbers_eq_none memOther).mpr listed] at found
    cases found
  · rw [flatMap_arrivals]
    refine List.pairwise_map.mpr (List.pairwise_filterMap.mpr ?_)
    refine (List.pairwise_map.mp otherSound.ids).imp fun {a b} distinct first foundA second foundB => ?_
    intro same
    obtain ⟨sequence, numberA, rfl⟩ := Option.map_eq_some_iff.mp foundA
    obtain ⟨number, numberB, rfl⟩ := Option.map_eq_some_iff.mp foundB
    exact distinct (merged.numbering.unique numberA ((show sequence = number from same) ▸ numberB))
  · intro message mem
    obtain ⟨original, -, sequence, found, rfl⟩ := added mem
    exact merged.numbering.above found
  · intro thread mem
    rcases each thread mem with mem | ⟨arriving, memOther, rfl⟩
    · exact sound.increasing thread mem
    · have arrives := merged.pairwise_arrivals (otherSound.increasing arriving memOther)
        fun message inside => mem_messages.mpr ⟨arriving, memOther, inside⟩
      have same := otherSound.arrived_eq merged memOther
      cases held : book.thread arriving.id with
      | none => exact (congrArg (List.Pairwise _) same).mpr arrives
      | some kept =>
        have memKept := mem_of_thread held
        refine List.pairwise_append.mpr ⟨sound.increasing kept memKept, same ▸ arrives, ?_⟩
        intro old memOld message memNew
        obtain ⟨original, -, sequence, found, rfl⟩ := mem_arrived.mp memNew
        exact (sound.bounded old (mem_messages.mpr ⟨kept, memKept, memOld⟩)).2.trans_lt
          (merged.numbering.above found).1
  · intro thread mem
    rcases each thread mem with mem | ⟨arriving, memOther, rfl⟩
    · exact (sound.seen thread mem).trans later
    · cases held : book.thread arriving.id with
      | none => exact translated _ _
      | some kept => exact max_le ((sound.seen kept (mem_of_thread held)).trans later) (translated _ _)
  · intro thread mem id replied
    rcases each thread mem with mem | ⟨arriving, memOther, rfl⟩
    · exact .inl (sound.read thread mem id replied)
    · have brought : id ∈ arriving.seenReplies → id ∈ book.messages.map Message.id ∨
          id ∈ (other.threads.flatMap (arrivals numbers)).map Message.id := by
        intro replied
        obtain ⟨message, memMessage, rfl⟩ := List.mem_map.mp (otherSound.read arriving memOther id replied)
        by_cases listed : message.id ∈ book.messages.map Message.id
        · exact .inl listed
        · obtain ⟨sequence, found⟩ := merged.numbers_of_lacking (mem_lacking.mpr ⟨memMessage, listed⟩)
          obtain ⟨holder, memHolder, inside⟩ := mem_messages.mp memMessage
          exact .inr (List.mem_map.mpr ⟨{ message with sequence }, List.mem_flatMap.mpr ⟨holder,
            memHolder, mem_arrivals.mpr ⟨message, inside, sequence, found, rfl⟩⟩, rfl⟩)
      cases held : book.thread arriving.id with
      | none =>
        rw [held] at replied
        exact brought replied
      | some kept =>
        rw [held] at replied
        rcases Finset.mem_union.mp replied with replied | replied
        · exact .inl (sound.read kept (mem_of_thread held) id replied)
        · exact brought replied
  · intro id position found
    rw [merged.answered] at found
    split at found
    · obtain rfl := Option.some.inj found
      exact max_le ((sound.answeredThrough_le id).trans later) (translated _ _)
    · exact (sound.covered found).trans later

omit sound in
theorem step (sound : Sound book) (operation : Operation)
    (others : ∀ other, operation = .merge other → Sound other) : Sound (book.after operation) := by
  cases operation with
  | post post now =>
    rcases book.after_post post now with same | ⟨fresh, posted, -⟩
    · rwa [same]
    · exact sound.posted posted fresh
  | answer post now =>
    rcases book.after_answer post now with same | ⟨comment, grown, -, named, came, same⟩
    · rwa [same]
    · have inside := (namedComment_eq_some named).1
      have within := (sound.bounded comment (mem_messages_of_messagesOf inside)).2
      rw [same]
      rcases came with ⟨-, rfl⟩ | ⟨fresh, posted, -⟩
      · exact sound.answered (max_le (sound.answeredThrough_le _) within)
      · have grown := sound.posted posted fresh
        exact grown.answered (max_le (grown.answeredThrough_le _)
          (within.trans (posted.sequence ▸ Nat.le_succ _)))
  | merge other =>
    have otherSound := others other rfl
    rcases after_merge book otherSound with same | ⟨numbers, -, merged⟩
    · rwa [same]
    · exact sound.merged otherSound merged
  | markRead id through =>
    rcases book.after_markRead id through with same | attended
    · rwa [same]
    · exact sound.attended attended
  | markRepliesRead ids => exact sound.attended (attended_markRepliesRead ids)
  | setResolution id resolution =>
    rcases book.after_setResolution id resolution with same | attended
    · rwa [same]
    · exact sound.attended attended

end Sound

theorem Reachable.sound {allowed : ReviewThreads → ReviewThreads → Prop}
    (reached : Reachable allowed book) : Sound book := by
  induction reached with
  | new unit => exact sound_new unit
  | step operation _ _ _ ih others => exact ih.step operation others

/-- The message of an answer, once it is there. -/
theorem reply_of_repeat (sound : Sound book) {existing : Message}
    (held : book.message post.message.id = some existing)
    (same : existing.sameContent post.message = true)
    (inside : (book.threadForMessage existing.id).map ReviewThread.id = some post.threadId) :
    existing ∈ book.messagesOf post.threadId ∧ existing.author = post.message.author ∧
      existing.inReplyTo = post.message.inReplyTo := by
  obtain ⟨id, thread, holder, mem, memMessage⟩ := mem_of_message held
  rw [id, holder] at inside
  have threadId : thread.id = post.threadId := Option.some.inj inside
  simp only [Message.sameContent, Bool.and_eq_true, decide_eq_true_eq] at same
  refine ⟨?_, same.1.1.1.1.2, same.1.1.2⟩
  rw [← threadId, messagesOf_some (sound.thread_self mem)]
  exact memMessage

/-- What holds of a new document, survives every growth that moves no answered position, and
every answer and merge, holds of every document reached. -/
theorem Reachable.invariant {allowed : ReviewThreads → ReviewThreads → Prop}
    {P : ReviewThreads → Prop} (new : ∀ unit, P (.new unit))
    (grow : ∀ {book after}, P book → after.answered = book.answered →
      (∀ id, book.messagesOf id ⊆ after.messagesOf id) → P after)
    (answer : ∀ {book : ReviewThreads} {id comment reply}, P book → comment ∈ book.messagesOf id →
      comment.author = .reviewer → reply ∈ book.messagesOf id → reply.author = .agent →
      reply.inReplyTo = some comment.id → P { book with
        answered := book.answered.insert id (max (book.answeredThrough id) comment.sequence) })
    (merge : ∀ {book other after numbers}, Sound book → Sound other → P book → P other →
      allowed book other → Merged book other after numbers → P after)
    (reached : Reachable allowed book) : P book := by
  have posted : ∀ {book after : ReviewThreads} {post now}, P book → Posted book post now after →
      P after := fun {book after post now} holds posted =>
    grow holds posted.answered fun id => posted.messagesOf id ▸ List.subset_append_left _ _
  have attended : ∀ {book after : ReviewThreads}, P book → Attended book after → P after :=
    fun {book after} holds attended =>
      grow holds attended.answered fun id => attended.messagesOf id ▸ List.Subset.refl _
  induction reached with
  | new unit => exact new unit
  | @step book operation reached others may ih otherIh =>
    have sound := reached.sound
    cases operation with
    | post post now =>
      rcases book.after_post post now with same | ⟨-, effect, -⟩
      · rwa [same]
      · exact posted ih effect
    | answer post now =>
      rcases book.after_answer post now with same | ⟨comment, grown, agent, named, came, same⟩
      · rwa [same]
      · obtain ⟨mem, reviewer, names⟩ := namedComment_eq_some named
        rw [same]
        rcases came with ⟨⟨existing, held, repeats, inside⟩, rfl⟩ | ⟨-, effect, -⟩
        · obtain ⟨memReply, author, named⟩ := reply_of_repeat sound held repeats inside
          exact answer ih mem reviewer memReply (author.trans agent) (named.trans names)
        · have came : book.stamped post now ∈ grown.messagesOf post.threadId := by
            rw [effect.messagesOf, if_pos rfl]
            exact List.mem_append_right _ List.mem_cons_self
          exact answer (posted ih effect) (effect.messagesOf _ ▸ List.mem_append_left _ mem) reviewer
            came agent names
    | merge other =>
      rcases after_merge book (others other rfl).sound with same | ⟨numbers, -, effect⟩
      · rwa [same]
      · exact merge sound (others other rfl).sound ih (otherIh other rfl) (may other rfl) effect
    | markRead id through =>
      rcases book.after_markRead id through with same | effect
      · rwa [same]
      · exact attended ih effect
    | markRepliesRead ids => exact attended ih (attended_markRepliesRead ids)
    | setResolution id resolution =>
      rcases book.after_setResolution id resolution with same | effect
      · rwa [same]
      · exact attended ih effect

/-! ## Answered positions -/

/-- An answered position is the sequence of a reviewer comment of its thread. -/
def AnswersComments (book : ReviewThreads) : Prop :=
  ∀ id position, book.answered.lookup id = some position →
    ∃ comment ∈ book.messagesOf id, comment.author = .reviewer ∧ comment.sequence = position

/-- The order in which a merge numbers the messages of the other document: those it knows first,
by their sequences, then those that arrive. -/
def comesBefore (book : ReviewThreads) (message later : Message) : Prop :=
  match book.known message.id, book.known later.id with
  | some sequence, some after => sequence ≤ after
  | some _, none => True
  | none, some _ => False
  | none, none => message.sequence ≤ later.sequence

/-- Of the messages that an answered position of the other document covers, the one that comes
last is a reviewer comment of the thread, or answered here already. -/
def KeepsAnswered (book other : ReviewThreads) : Prop :=
  ∀ thread ∈ other.threads, ∀ position, other.answered.lookup thread.id = some position →
    ∀ latest ∈ thread.messages, latest.sequence ≤ position →
      (∀ message ∈ thread.messages, message.sequence ≤ position →
        book.comesBefore message latest) →
      match book.known latest.id with
      | none => latest.author = .reviewer
      | some sequence => sequence ≤ book.answeredThrough thread.id ∨
          ∃ comment ∈ book.messagesOf thread.id,
            comment.author = .reviewer ∧ comment.sequence = sequence

theorem comesBefore_iff (sound : Sound book) (otherSound : Sound other)
    (merged : Merged book other after numbers) {message later : Message}
    (mem : message ∈ other.messages) (memLater : later ∈ other.messages) :
    book.comesBefore message later ↔
      mergedSequence book.known numbers message.id ≤ mergedSequence book.known numbers later.id := by
  have known_le : ∀ {id sequence}, book.known id = some sequence → sequence ≤ book.sequence := by
    intro id sequence held
    obtain ⟨kept, memKept, -, rfl⟩ := known_eq_some held
    exact (sound.bounded kept memKept).2
  have new : ∀ {message : Message}, message ∈ other.messages → book.known message.id = none →
      message ∈ book.lacking other ∧ ∃ sequence, numbers message.id = some sequence ∧
        book.sequence < sequence := by
    intro message mem missing
    have lacked := mem_lacking.mpr ⟨mem, known_eq_none.mp missing⟩
    obtain ⟨sequence, found⟩ := merged.numbers_of_lacking lacked
    exact ⟨lacked, sequence, found, (merged.numbering.above found).1⟩
  unfold comesBefore
  cases held : book.known message.id with
  | some sequence =>
    rw [merged.mergedSequence_known mem held]
    cases heldLater : book.known later.id with
    | some other => rw [merged.mergedSequence_known memLater heldLater]
    | none =>
      obtain ⟨-, number, found, above⟩ := new memLater heldLater
      rw [Merged.mergedSequence_new found]
      exact iff_of_true trivial ((known_le held).trans above.le)
  | none =>
    obtain ⟨lacked, number, found, above⟩ := new mem held
    rw [Merged.mergedSequence_new found]
    cases heldLater : book.known later.id with
    | some other =>
      rw [merged.mergedSequence_known memLater heldLater]
      exact iff_of_false not_false ((known_le heldLater).trans_lt above).not_ge
    | none =>
      obtain ⟨lackedLater, after, foundLater, -⟩ := new memLater heldLater
      rw [Merged.mergedSequence_new foundLater]
      dsimp only
      rcases lt_trichotomy message.sequence later.sequence with before | same | before
      · have ordered := merged.numbering.ordered lacked lackedLater before found foundLater
        exact iff_of_true before.le ordered.le
      · obtain rfl := List.inj_on_of_nodup_map otherSound.sequences mem memLater same
        obtain rfl := Option.some.inj (found.symm.trans foundLater)
        exact iff_of_true le_rfl le_rfl
      · have ordered := merged.numbering.ordered lackedLater lacked before foundLater found
        exact iff_of_false before.not_ge ordered.not_ge

namespace AnswersComments

variable (answers : AnswersComments book)
include answers

theorem grow (answered : after.answered = book.answered)
    (messages : ∀ id, book.messagesOf id ⊆ after.messagesOf id) : AnswersComments after := by
  intro id position found
  rw [answered] at found
  obtain ⟨comment, mem, reviewer, same⟩ := answers id position found
  exact ⟨comment, messages id mem, reviewer, same⟩

/-- An answer moves the position to the comment it names, unless it is past it already. -/
theorem answer {id : ThreadId} {comment : Message} (mem : comment ∈ book.messagesOf id)
    (reviewer : comment.author = .reviewer) :
    AnswersComments { book with
      answered := book.answered.insert id (max (book.answeredThrough id) comment.sequence) } := by
  intro other position found
  rw [SortedMap.lookup_insert] at found
  split_ifs at found with same
  · subst same
    obtain rfl := Option.some.inj found
    rcases le_total (book.answeredThrough id) comment.sequence with below | above
    · exact ⟨comment, mem, reviewer, (max_eq_right below).symm⟩
    · rw [max_eq_left above]
      cases held : book.answered.lookup id with
      | none =>
        rw [answeredThrough, held] at above
        exact ⟨comment, mem, reviewer, (by rw [answeredThrough, held]; exact Nat.le_zero.mp above)⟩
      | some position =>
        rw [answeredThrough, held]
        exact answers id position held
  · exact answers other position found

theorem merged (sound : Sound book) (otherSound : Sound other) (otherAnswers : AnswersComments other)
    (merged : Merged book other after numbers) (keeps : KeepsAnswered book other) :
    AnswersComments after := by
  intro id position found
  have kept : ∀ {position}, book.answered.lookup id = some position →
      ∃ comment ∈ after.messagesOf id, comment.author = .reviewer ∧ comment.sequence = position := by
    intro position held
    obtain ⟨comment, mem, rest⟩ := answers id position held
    exact ⟨comment, merged.messagesOf id ▸ List.mem_append_left _ mem, rest⟩
  rw [merged.answered] at found
  split at found
  · next thread translated arriving held =>
    obtain rfl := Option.some.inj found
    obtain ⟨comment, memComment, -, rfl⟩ := otherAnswers id _ held
    rw [messagesOf_some arriving] at memComment
    have inside : ∀ message ∈ thread.messages, message ∈ other.messages := fun message mem =>
      mem_messages.mpr ⟨thread, mem_of_thread arriving, mem⟩
    have same := id_of_thread arriving
    rcases translate_cases book.known numbers thread comment.sequence with
      ⟨latest, memLatest, covered, translated, top⟩ | ⟨none, -⟩
    · have last := keeps thread (mem_of_thread arriving) comment.sequence (same ▸ held) latest
        memLatest covered fun message mem within =>
          (comesBefore_iff sound otherSound merged (inside message mem) (inside latest memLatest)).mpr
            (top message mem within)
      rw [translated]
      cases here : book.known latest.id with
      | none =>
        rw [here] at last
        obtain ⟨sequence, number⟩ := merged.numbers_of_lacking
          (mem_lacking.mpr ⟨inside latest memLatest, known_eq_none.mp here⟩)
        have past : book.answeredThrough id ≤ sequence :=
          (sound.answeredThrough_le id).trans (merged.numbering.above number).1.le
        rw [Merged.mergedSequence_new number, max_eq_right past]
        refine ⟨{ latest with sequence }, ?_, last, rfl⟩
        rw [merged.messagesOf, arriving]
        exact List.mem_append_right _ (mem_arrived.mpr ⟨latest, memLatest, sequence, number, rfl⟩)
      | some sequence =>
        rw [here, same] at last
        rw [merged.mergedSequence_known (inside latest memLatest) here]
        obtain ⟨original, memOriginal, -, rfl⟩ := known_eq_some here
        have positive := (sound.bounded original memOriginal).1
        have answeredHere : original.sequence ≤ book.answeredThrough id →
            ∃ comment ∈ after.messagesOf id, comment.author = .reviewer ∧
              comment.sequence = max (book.answeredThrough id) original.sequence := by
          intro within
          rw [max_eq_left within]
          unfold answeredThrough at within ⊢
          cases old : book.answered.lookup id with
          | none =>
            rw [old] at within
            exact absurd within positive.not_ge
          | some position => exact kept old
        rcases last with within | ⟨comment, mem, reviewer, same⟩
        · exact answeredHere within
        · rw [← same] at answeredHere ⊢
          rcases le_total (book.answeredThrough id) comment.sequence with below | above
          · exact ⟨comment, merged.messagesOf id ▸ List.mem_append_left _ mem, reviewer,
              (max_eq_right below).symm⟩
          · exact answeredHere above
    · exact absurd (none comment memComment) (lt_irrefl _)
  · exact kept found

end AnswersComments

/-- Runs whose merges keep every answered position on a comment. -/
theorem Reachable.answersComments (reached : Reachable KeepsAnswered book) :
    AnswersComments book :=
  reached.invariant (fun _ => nofun) (fun answers => answers.grow)
    (fun answers mem reviewer _ _ _ => answers.answer mem reviewer)
    fun sound otherSound answers otherAnswers keeps effect =>
      answers.merged sound otherSound otherAnswers effect keeps

/-- Every document reached has its identities and sequences in order, takes no message twice
and survives errors; where every merge keeps the answered positions on comments, they stay there. -/
theorem documents_in_order (reached : Reachable (fun _ _ => True) book) :
    (book.messages.map Message.id).Nodup ∧ (book.threads.map ReviewThread.id).Nodup ∧
      (book.messages.map Message.sequence).Nodup ∧
      (∀ thread ∈ book.threads, thread.messages.Pairwise fun a b => a.sequence < b.sequence) ∧
      (∀ message ∈ book.messages, message.sequence ≤ book.sequence) ∧
    (∀ (post : Post) (now : Nat), post.message.id ∈ book.messages.map Message.id →
      book.after (.post post now) = book ∧
        (book.after (.answer post now)).messages = book.messages) ∧
    (∀ (operation : Operation) (e : String),
      (book.perform operation).1 = some e → book.after operation = book) ∧
    (Reachable KeepsAnswered book → AnswersComments book) := by
  have sound := reached.sound
  refine ⟨sound.ids, sound.threads, sound.sequences, sound.increasing,
    fun message mem => (sound.bounded message mem).2, fun post now listed => ?_,
    fun operation e => error_leaves_book operation, Reachable.answersComments⟩
  have notFresh : book.message post.message.id ≠ none := fun missing =>
    message_eq_none.mp missing listed
  refine ⟨(book.after_post post now).resolve_right fun posted => notFresh posted.1, ?_⟩
  rcases book.after_answer post now with same | ⟨comment, grown, -, -, came, same⟩
  · rw [same]
  · rw [same]
    rcases came with ⟨-, rfl⟩ | ⟨fresh, -⟩
    · rfl
    · exact absurd fresh notFresh

section Samples

def samplePost (id text : String) (author : Author) (subject : Option ThreadSubject)
    (inReplyTo : Option MessageId) : Post :=
  ⟨"thread", { id, author, text, inReplyTo }, subject⟩

def comment (id : MessageId) : Post := samplePost id "A comment" .reviewer none none

def started : ReviewThreads :=
  (ReviewThreads.new "unit").after (.post (samplePost "c1" "First" .reviewer
    (some (.code ⟨⟨none, some "a.rs"⟩, "+line"⟩)) none) 0)

/-- Two documents continued from one: the second has an agent reply before the second comment. -/
def kept : ReviewThreads := started.after (.post (comment "c2") 0)

def task : ReviewThreads :=
  ((started.after (.post (samplePost "a1" "Reply" .agent none (some "c1")) 0)).after
    (.merge kept)).after (.answer (samplePost "a2" "Answer" .agent none (some "c2")) 0)

def keptLater : ReviewThreads := kept.after (.post (comment "c3") 0)

def mergedLater : ReviewThreads := keptLater.after (.merge task)

theorem reachable_started (allowed : ReviewThreads → ReviewThreads → Prop) :
    Reachable allowed started :=
  .step _ (.new "unit") nofun nofun

/-- The merge brings the position to an agent's reply, past a comment that nobody answered. -/
theorem merge_answers_reply : Reachable (fun _ _ => True) mergedLater ∧
    mergedLater.answered.lookup "thread" = some 4 ∧
    (∀ message ∈ mergedLater.messagesOf "thread", message.sequence = 4 → message.author = .agent) ∧
    keptLater.newMessages ≠ [] ∧ mergedLater.threads.map ReviewThread.isWaiting = [true] ∧
    mergedLater.newMessages = [] := by
  have reachedKept : Reachable (fun _ _ => True) kept :=
    .step _ (reachable_started _) nofun nofun
  have reachedReply : Reachable (fun _ _ => True)
      (started.after (.post (samplePost "a1" "Reply" .agent none (some "c1")) 0)) :=
    .step _ (reachable_started _) nofun nofun
  have reachedTask : Reachable (fun _ _ => True) task :=
    .step _ (reachedReply.merge reachedKept trivial) nofun nofun
  have reachedLater : Reachable (fun _ _ => True) keptLater := .step _ reachedKept nofun nofun
  exact ⟨reachedLater.merge reachedTask trivial, by decide⟩

/-- A document with one answered comment. -/
def answeredOnce : ReviewThreads :=
  started.after (.answer (samplePost "a1" "Answer" .agent none (some "c1")) 0)

theorem documents_in_order_answered : answeredOnce.answered.lookup "thread" = some 1 ∧
    (∃ comment ∈ answeredOnce.messagesOf "thread",
      comment.author = .reviewer ∧ comment.sequence = 1) ∧
    (answeredOnce.messages.map Message.id).Nodup := by
  have reached : ∀ allowed, Reachable allowed answeredOnce := fun allowed =>
    .step _ (reachable_started allowed) nofun nofun
  have answered : answeredOnce.answered.lookup "thread" = some 1 := by decide
  obtain ⟨ids, -, -, -, -, -, -, answers⟩ := documents_in_order (reached _)
  exact ⟨answered, answers (reached _) "thread" 1 answered, ids⟩

end Samples

end ReviewThreads

end ProgressiveReviewer.Threads
