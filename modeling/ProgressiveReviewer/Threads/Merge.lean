import ProgressiveReviewer.Threads.Conversation
import Mathlib.Data.List.Sort
import Mathlib.Order.Lex
import Mathlib.Data.Prod.Lex

/-! One review's threads kept in two documents, merged into one (`review-threads/src/merge.rs`). -/

namespace ProgressiveReviewer.Threads

open Library

/-- Posting order; the identities settle what the sequences do not. -/
def inOrder (a b : Nat × MessageId) : Prop := a.1 < b.1 ∨ a.1 = b.1 ∧ a.2 ≤ b.2

instance : DecidableRel inOrder := fun _ _ => inferInstanceAs (Decidable (_ ∨ _ ∧ _))

instance : Std.Total inOrder where
  total a b := by
    rcases lt_trichotomy a.1 b.1 with before | same | after
    · exact .inl (.inl before)
    · exact (le_total a.2 b.2).imp (fun le => .inr ⟨same, le⟩) fun le => .inr ⟨same.symm, le⟩
    · exact .inr (.inl after)

instance : IsTrans (Nat × MessageId) inOrder where
  trans := by
    rintro a b c (ab | ⟨ab, first⟩) (bc | ⟨bc, second⟩)
    · exact .inl (ab.trans bc)
    · exact .inl (bc ▸ ab)
    · exact .inl (ab ▸ bc)
    · exact .inr ⟨ab.trans bc, first.trans second⟩

/-- Give the arriving messages the sequences after the last one, one after the other. -/
def renumber : Nat → (MessageId → Option Nat) → List (Nat × MessageId) →
    Except String (Nat × (MessageId → Option Nat))
  | sequence, renumbered, [] => .ok (sequence, renumbered)
  | sequence, renumbered, (_, id) :: rest =>
    match checkedAdd sequence with
    | .error e => .error e
    | .ok next => renumber next (Function.update renumbered id (some next)) rest

namespace ReviewThreads

/-- The sequences of a document's messages, by identity. -/
def known (book : ReviewThreads) (id : MessageId) : Option Nat :=
  (book.messages.reverse.find? (·.id = id)).map Message.sequence

def arriving (book other : ReviewThreads) : List (Nat × MessageId) :=
  ((other.messages.filter fun message => (book.known message.id).isNone).map
    fun message => (message.sequence, message.id)).insertionSort inOrder

end ReviewThreads

section Thread

variable (known renumbered : MessageId → Option Nat) (thread : ReviewThread)

/-- The sequence of a message in the merged document. -/
def mergedSequence (id : MessageId) : Nat := ((renumbered id).or (known id)).getD 0

/-- A position in a thread becomes the merged sequence of the latest of the messages it covered. -/
def translate (position : Nat) : Nat :=
  ((thread.messages.filter (·.sequence ≤ position)).map
    fun message => mergedSequence known renumbered message.id).max?.getD 0

def arrived : List Message :=
  (thread.messages.filterMap fun message =>
    (renumbered message.id).map fun sequence => { message with sequence }).insertionSort
      fun a b => a.sequence ≤ b.sequence

/-- The thread of the merged document, from the kept one and the arriving one. -/
def joined : Option ReviewThread → ReviewThread
  | none =>
    { thread with
      messages := arrived renumbered thread
      seenReplyThrough := translate known renumbered thread thread.seenReplyThrough }
  | some kept =>
    { kept with
      -- A comment that arrives may wait for an answer, which a resolved thread would never
      -- bring to the agent.
      resolution :=
        if arrived renumbered thread ≠ [] ∧ thread.resolution = .open then .open
        else kept.resolution
      messages := kept.messages ++ arrived renumbered thread
      seenReplyThrough := max kept.seenReplyThrough
        (translate known renumbered thread thread.seenReplyThrough)
      seenReplies := kept.seenReplies ∪ thread.seenReplies }

end Thread

namespace ReviewThreads

/-- Bring one thread of the other document in. -/
def mergeThread (known renumbered : MessageId → Option Nat) (answered : SortedMap ThreadId Nat)
    (book : ReviewThreads) (thread : ReviewThread) : ReviewThreads :=
  let book :=
    match book.thread thread.id with
    | some _ => book.changeThread thread.id fun kept => joined known renumbered thread (some kept)
    | none => { book with threads := book.threads ++ [joined known renumbered thread none] }
  match answered.lookup thread.id with
  | some position =>
    { book with
      answered := book.answered.insert thread.id
        (max (book.answeredThrough thread.id) (translate known renumbered thread position)) }
  | none => book

/-- Add the threads and messages of a document of the same review kept apart. -/
def merge (book other : ReviewThreads) : EStateM.Result String ReviewThreads Unit :=
  if other.reviewUnit ≠ book.reviewUnit then
    .error "The threads belong to another review" book
  else
    match renumber book.sequence (fun _ => none) (book.arriving other) with
    | .error e => .error e book
    | .ok (sequence, renumbered) =>
      .ok () { other.threads.foldl (mergeThread book.known renumbered other.answered) book with
        sequence }

end ReviewThreads

/-! ## The numbering of the arriving messages -/

theorem checkedAdd_eq_ok {sequence next : Nat} :
    checkedAdd sequence = .ok next ↔ sequence < maxSequence ∧ next = sequence + 1 := by
  unfold checkedAdd
  split_ifs with fits
  · simp [fits, eq_comm]
  · simp [fits]

theorem renumber_eq_ok {arriving : List (Nat × MessageId)} {first last : Nat}
    {renumbered numbers : MessageId → Option Nat} (nodup : (arriving.map Prod.snd).Nodup)
    (done : renumber first renumbered arriving = .ok (last, numbers)) :
    last = first + arriving.length ∧
      arriving.map (fun message => numbers message.2) =
        (List.range' (first + 1) arriving.length).map some ∧
      ∀ id ∉ arriving.map Prod.snd, numbers id = renumbered id := by
  induction arriving generalizing first renumbered with
  | nil =>
    obtain ⟨rfl, rfl⟩ := Prod.mk.inj (Except.ok.inj done)
    exact ⟨rfl, rfl, fun _ _ => rfl⟩
  | cons message rest ih =>
    obtain ⟨apart, nodup⟩ := List.nodup_cons.mp nodup
    rw [renumber] at done
    split at done
    · cases done
    · next next counted =>
      obtain ⟨-, rfl⟩ := checkedAdd_eq_ok.mp counted
      obtain ⟨rfl, listed, others⟩ := ih nodup done
      refine ⟨by simp only [List.length_cons]; omega, ?_, fun id away => ?_⟩
      · rw [List.map_cons, List.length_cons, List.range'_succ, List.map_cons, listed,
          others _ apart, Function.update_self]
      · rw [others id fun mem => away (List.mem_cons_of_mem _ mem),
          Function.update_of_ne fun same : id = message.2 => away (same ▸ List.mem_cons_self)]

theorem renumber_eq_error {arriving : List (Nat × MessageId)} {first : Nat}
    {renumbered : MessageId → Option Nat} {e : String}
    (failed : renumber first renumbered arriving = .error e) : e = "Too many messages" := by
  induction arriving generalizing first renumbered with
  | nil => cases failed
  | cons message rest ih =>
    rw [renumber] at failed
    split at failed
    · next full =>
      cases failed
      unfold checkedAdd at full
      split_ifs at full
      exact (Except.error.inj full).symm
    · exact ih failed

/-- What the numbers given to new messages come to: each in turn after those before. -/
structure Numbering (first last : Nat) (new : List Message)
    (numbers : MessageId → Option Nat) : Prop where
  covers : ∀ id, (numbers id).isSome ↔ id ∈ new.map Message.id
  above : ∀ {id sequence}, numbers id = some sequence → first < sequence ∧ sequence ≤ last
  ordered : ∀ {message later : Message} {sequence after}, message ∈ new → later ∈ new →
    message.sequence < later.sequence → numbers message.id = some sequence →
      numbers later.id = some after → sequence < after
  unique : ∀ {id other sequence}, numbers id = some sequence → numbers other = some sequence →
    id = other
  counts : last = first + new.length

theorem pairwise_inOrder (arriving : List (Nat × MessageId)) :
    (arriving.insertionSort inOrder).Pairwise fun a b => a.1 ≤ b.1 := by
  refine (List.pairwise_insertionSort inOrder arriving).imp fun {a b} ordered => ?_
  rcases ordered with before | ⟨same, -⟩
  · exact before.le
  · exact same.le

theorem numbering_of_renumber {first last : Nat} {new : List Message}
    {numbers : MessageId → Option Nat} (nodup : (new.map Message.id).Nodup)
    (done : renumber first (fun _ => none)
      ((new.map fun message => (message.sequence, message.id)).insertionSort inOrder) =
        .ok (last, numbers)) : Numbering first last new numbers := by
  set arriving := (new.map fun message => (message.sequence, message.id)).insertionSort inOrder
    with arrivingEq
  have perm : arriving.Perm (new.map fun message => (message.sequence, message.id)) :=
    List.perm_insertionSort _ _
  have ids : (arriving.map Prod.snd).Perm (new.map Message.id) := by
    have := perm.map Prod.snd
    rwa [List.map_map] at this
  obtain ⟨rfl, listed, others⟩ := renumber_eq_ok (ids.nodup_iff.mpr nodup) done
  have length : arriving.length = new.length := by simpa using perm.length_eq
  -- The number of a message is a place in the range after the first one.
  have placed : ∀ id ∈ arriving.map Prod.snd, ∃ sequence, numbers id = some sequence ∧
      first < sequence ∧ sequence ≤ first + arriving.length := by
    intro id mem
    obtain ⟨message, held, rfl⟩ := List.mem_map.mp mem
    have numbered := List.mem_map_of_mem (f := fun message => numbers message.2) held
    rw [listed] at numbered
    obtain ⟨sequence, range, same⟩ := List.mem_map.mp numbered
    rw [List.mem_range'_1] at range
    exact ⟨sequence, same.symm, by omega⟩
  have rising : arriving.Pairwise fun a b => ∀ sequence after, numbers a.2 = some sequence →
      numbers b.2 = some after → sequence < after := by
    have pairs : (arriving.map fun message => numbers message.2).Pairwise
        fun a b => ∀ sequence after, a = some sequence → b = some after → sequence < after := by
      rw [listed, List.pairwise_map]
      refine (List.pairwise_lt_range' ..).imp fun {a b} before sequence after left right => ?_
      obtain rfl := Option.some.inj left
      obtain rfl := Option.some.inj right
      exact before
    exact List.pairwise_map.mp pairs
  have members : ∀ {id sequence}, numbers id = some sequence → id ∈ arriving.map Prod.snd := by
    intro id sequence found
    by_contra away
    rw [others id away] at found
    cases found
  refine ⟨fun id => ?_, fun {id sequence} found => ?_, ?_, ?_, by omega⟩
  · rw [← ids.mem_iff]
    refine ⟨fun some => ?_, fun mem => ?_⟩
    · obtain ⟨sequence, found⟩ := Option.isSome_iff_exists.mp some
      exact members found
    · obtain ⟨sequence, found, -⟩ := placed id mem
      exact Option.isSome_iff_exists.mpr ⟨sequence, found⟩
  · obtain ⟨number, same, bounds⟩ := placed id (members found)
    obtain rfl := Option.some.inj (found.symm.trans same)
    exact bounds
  · intro message later sequence after mem memLater before found foundLater
    have here : ∀ {m : Message}, m ∈ new → (m.sequence, m.id) ∈ arriving := fun mem =>
      perm.mem_iff.mpr (List.mem_map_of_mem (f := fun m : Message => (m.sequence, m.id)) mem)
    have both := rising.and (pairwise_inOrder (new.map fun m => (m.sequence, m.id)))
    refine List.Pairwise.forall_of_forall_of_flip
      (R := fun a b => a.1 < b.1 → ∀ sequence after, numbers a.2 = some sequence →
        numbers b.2 = some after → sequence < after)
      (fun a _ less => absurd less (lt_irrefl _)) (both.imp fun both _ => both.1)
      (both.imp fun both less => absurd less (not_lt.mpr both.2)) (here mem) (here memLater)
      before sequence after found foundLater
  · intro id other sequence found same
    obtain ⟨a, memA, rfl⟩ := List.mem_map.mp (members found)
    obtain ⟨b, memB, rfl⟩ := List.mem_map.mp (members same)
    have distinct : (arriving.map fun message => numbers message.2).Nodup := by
      rw [listed]
      exact (List.nodup_range' ..).map (Option.some_injective _)
    exact congrArg Prod.snd (List.inj_on_of_nodup_map distinct memA memB (found.trans same.symm))

/-! ## What the merged document holds -/

section Joined

variable {known renumbered : MessageId → Option Nat} {thread : ReviewThread}

@[simp] theorem joined_none_id : (joined known renumbered thread none).id = thread.id := rfl

@[simp] theorem joined_some_id {kept : ReviewThread} :
    (joined known renumbered thread (some kept)).id = kept.id := rfl

/-- The messages that a thread brings in, as they lie in it. -/
def arrivals (renumbered : MessageId → Option Nat) (thread : ReviewThread) : List Message :=
  thread.messages.filterMap fun message =>
    (renumbered message.id).map fun sequence => { message with sequence }

theorem arrived_perm : (arrived renumbered thread).Perm (arrivals renumbered thread) :=
  List.perm_insertionSort _ _

theorem mem_arrivals {message : Message} : message ∈ arrivals renumbered thread ↔
    ∃ original ∈ thread.messages, ∃ sequence, renumbered original.id = some sequence ∧
      message = { original with sequence } := by
  simp only [arrivals, List.mem_filterMap, Option.map_eq_some_iff]
  exact ⟨fun ⟨original, mem, sequence, found, same⟩ => ⟨original, mem, sequence, found, same.symm⟩,
    fun ⟨original, mem, sequence, found, same⟩ => ⟨original, mem, sequence, found, same.symm⟩⟩

theorem mem_arrived {message : Message} : message ∈ arrived renumbered thread ↔
    ∃ original ∈ thread.messages, ∃ sequence, renumbered original.id = some sequence ∧
      message = { original with sequence } :=
  arrived_perm.mem_iff.trans mem_arrivals

/-- A translated position is the merged sequence of the latest covered message, if any. -/
theorem translate_cases (known renumbered : MessageId → Option Nat) (thread : ReviewThread)
    (position : Nat) :
    (∃ latest ∈ thread.messages, latest.sequence ≤ position ∧
      translate known renumbered thread position = mergedSequence known renumbered latest.id ∧
      ∀ message ∈ thread.messages, message.sequence ≤ position →
        mergedSequence known renumbered message.id ≤
          mergedSequence known renumbered latest.id) ∨
    (∀ message ∈ thread.messages, position < message.sequence) ∧
      translate known renumbered thread position = 0 := by
  have listed : ∀ message ∈ thread.messages, message.sequence ≤ position →
      mergedSequence known renumbered message.id ∈
        (thread.messages.filter (·.sequence ≤ position)).map
          fun message => mergedSequence known renumbered message.id := fun message mem covered =>
    List.mem_map.mpr ⟨message, List.mem_filter.mpr ⟨mem, decide_eq_true covered⟩, rfl⟩
  unfold translate
  cases top : ((thread.messages.filter (·.sequence ≤ position)).map
      fun message => mergedSequence known renumbered message.id).max? with
  | none =>
    rw [List.max?_eq_none_iff] at top
    refine .inr ⟨fun message mem => ?_, rfl⟩
    by_contra covered
    have mem := listed message mem (not_lt.mp covered)
    rw [top] at mem
    cases mem
  | some latest =>
    obtain ⟨message, mem, rfl⟩ := List.mem_map.mp (List.max?_mem top)
    obtain ⟨mem, covered⟩ := List.mem_filter.mp mem
    exact .inl ⟨message, mem, of_decide_eq_true covered, rfl, fun earlier memEarlier covered =>
      (List.max?_le_iff top).mp le_rfl _ (listed earlier memEarlier covered)⟩

theorem translate_le {position bound : Nat}
    (below : ∀ message ∈ thread.messages, message.sequence ≤ position →
      mergedSequence known renumbered message.id ≤ bound) :
    translate known renumbered thread position ≤ bound := by
  rcases translate_cases known renumbered thread position with
    ⟨latest, mem, covered, same, -⟩ | ⟨-, same⟩
  · exact same ▸ below latest mem covered
  · exact same ▸ Nat.zero_le _

theorem le_translate {position : Nat} {message : Message} (mem : message ∈ thread.messages)
    (covered : message.sequence ≤ position) :
    mergedSequence known renumbered message.id ≤ translate known renumbered thread position := by
  rcases translate_cases known renumbered thread position with
    ⟨latest, -, -, same, top⟩ | ⟨none, -⟩
  · exact same ▸ top message mem covered
  · exact absurd (none message mem) (not_lt.mpr covered)

end Joined

namespace ReviewThreads

variable {book other : ReviewThreads} {known renumbered : MessageId → Option Nat}
  {answered : SortedMap ThreadId Nat} {threads : List ReviewThread} {thread : ReviewThread}

@[simp] theorem reviewUnit_mergeThread :
    (mergeThread known renumbered answered book thread).reviewUnit = book.reviewUnit := by
  unfold mergeThread
  cases book.thread thread.id <;> cases answered.lookup thread.id <;> rfl

@[simp] theorem sequence_mergeThread :
    (mergeThread known renumbered answered book thread).sequence = book.sequence := by
  unfold mergeThread
  cases book.thread thread.id <;> cases answered.lookup thread.id <;> rfl

theorem threads_mergeThread : (mergeThread known renumbered answered book thread).threads =
    match book.thread thread.id with
    | some _ => Keyed.change ReviewThread.id thread.id
        (fun kept => joined known renumbered thread (some kept)) book.threads
    | none => book.threads ++ [joined known renumbered thread none] := by
  unfold mergeThread
  cases book.thread thread.id <;> cases answered.lookup thread.id <;> rfl

theorem thread_mergeThread {id : ThreadId} :
    (mergeThread known renumbered answered book thread).thread id =
      if thread.id = id then some (joined known renumbered thread (book.thread id))
      else book.thread id := by
  rw [ReviewThreads.thread, threads_mergeThread]
  cases held : book.thread thread.id with
  | some kept =>
    have found : Keyed.find ReviewThread.id thread.id book.threads = some kept := held
    have keeps : ∀ kept, (joined known renumbered thread (some kept)).id = kept.id := fun _ => rfl
    dsimp only
    rw [Keyed.find_change keeps, found]
    split_ifs with same
    · rw [← same, held]
      rfl
    · rfl
  | none =>
    dsimp only
    rw [Keyed.find_append, Keyed.find_cons, Keyed.find_nil, joined_none_id]
    split_ifs with same
    · have missing : Keyed.find ReviewThread.id id book.threads = none := same ▸ held
      rw [missing, ← same, held]
      rfl
    · rw [Option.or_none]
      rfl

theorem lookup_mergeThread {id : ThreadId} :
    (mergeThread known renumbered answered book thread).answered.lookup id =
      if thread.id = id then
        match answered.lookup id with
        | some position =>
          some (max (book.answeredThrough id) (translate known renumbered thread position))
        | none => book.answered.lookup id
      else book.answered.lookup id := by
  have unchanged : (match book.thread thread.id with
      | some _ => book.changeThread thread.id fun kept => joined known renumbered thread (some kept)
      | none => { book with threads := book.threads ++ [joined known renumbered thread none] } :
        ReviewThreads).answered = book.answered := by
    cases book.thread thread.id <;> rfl
  unfold mergeThread
  split_ifs with same
  · subst same
    cases answered.lookup thread.id with
    | none => exact congrArg (SortedMap.lookup · _) unchanged
    | some position =>
      dsimp only
      rw [SortedMap.lookup_insert_self, answeredThrough, unchanged]
      rfl
  · cases answered.lookup thread.id with
    | none => exact congrArg (SortedMap.lookup · _) unchanged
    | some position =>
      dsimp only
      rw [SortedMap.lookup_insert, if_neg same, unchanged]

theorem messages_mergeThread : (mergeThread known renumbered answered book thread).messages.Perm
    (book.messages ++ arrived renumbered thread) := by
  rw [messages, threads_mergeThread]
  cases held : book.thread thread.id with
  | some kept => exact Keyed.flatMap_change held rfl
  | none =>
    dsimp only
    rw [List.flatMap_append, List.flatMap_singleton]
    rfl

theorem nodup_mergeThread (nodup : (book.threads.map ReviewThread.id).Nodup) :
    ((mergeThread known renumbered answered book thread).threads.map ReviewThread.id).Nodup := by
  rw [threads_mergeThread]
  cases held : book.thread thread.id with
  | some kept =>
    have keeps : ∀ kept, (joined known renumbered thread (some kept)).id = kept.id := fun _ => rfl
    dsimp only
    rwa [Keyed.map_key_change keeps]
  | none =>
    rw [List.map_append]
    refine nodup.append (List.nodup_singleton _) fun id mem new => ?_
    obtain rfl := List.mem_singleton.mp new
    obtain ⟨kept, mem, same⟩ := List.mem_map.mp mem
    exact Keyed.find_eq_none.mp held kept mem same

/-! The threads of the other document one after the other. -/

@[simp] theorem reviewUnit_mergeThreads :
    (threads.foldl (mergeThread known renumbered answered) book).reviewUnit = book.reviewUnit := by
  induction threads generalizing book with
  | nil => rfl
  | cons thread rest ih => rw [List.foldl_cons, ih, reviewUnit_mergeThread]

theorem thread_mergeThreads {id : ThreadId} (nodup : (threads.map ReviewThread.id).Nodup) :
    (threads.foldl (mergeThread known renumbered answered) book).thread id =
      match Keyed.find ReviewThread.id id threads with
      | some thread => some (joined known renumbered thread (book.thread id))
      | none => book.thread id := by
  induction threads generalizing book with
  | nil => rfl
  | cons thread rest ih =>
    obtain ⟨apart, nodup⟩ := List.nodup_cons.mp nodup
    rw [List.foldl_cons, ih nodup, thread_mergeThread, Keyed.find_cons]
    split_ifs with same
    · have missing : Keyed.find ReviewThread.id id rest = none :=
        Keyed.find_eq_none.mpr fun later mem equal =>
          apart (same.trans equal.symm ▸ List.mem_map_of_mem mem)
      rw [missing]
    · rfl

theorem lookup_mergeThreads {id : ThreadId} (nodup : (threads.map ReviewThread.id).Nodup) :
    (threads.foldl (mergeThread known renumbered answered) book).answered.lookup id =
      match Keyed.find ReviewThread.id id threads, answered.lookup id with
      | some thread, some position =>
        some (max (book.answeredThrough id) (translate known renumbered thread position))
      | _, _ => book.answered.lookup id := by
  induction threads generalizing book with
  | nil => rfl
  | cons thread rest ih =>
    obtain ⟨apart, nodup⟩ := List.nodup_cons.mp nodup
    rw [List.foldl_cons, ih nodup, Keyed.find_cons, answeredThrough, lookup_mergeThread]
    split_ifs with same
    · have missing : Keyed.find ReviewThread.id id rest = none :=
        Keyed.find_eq_none.mpr fun later mem equal =>
          apart (same.trans equal.symm ▸ List.mem_map_of_mem mem)
      rw [missing]
      cases answered.lookup id <;> rfl
    · rfl

theorem messages_mergeThreads :
    (threads.foldl (mergeThread known renumbered answered) book).messages.Perm
      (book.messages ++ threads.flatMap (arrived renumbered)) := by
  induction threads generalizing book with
  | nil => simp
  | cons thread rest ih =>
    rw [List.foldl_cons, List.flatMap_cons, ← List.append_assoc]
    exact ih.trans (messages_mergeThread.append_right _)

theorem nodup_mergeThreads (nodup : (book.threads.map ReviewThread.id).Nodup) :
    ((threads.foldl (mergeThread known renumbered answered) book).threads.map
      ReviewThread.id).Nodup := by
  induction threads generalizing book with
  | nil => exact nodup
  | cons thread rest ih => exact ih (nodup_mergeThread nodup)

end ReviewThreads

end ProgressiveReviewer.Threads
