import ProgressiveReviewer.Wakeups.Channel

/-! No pending comment is forgotten: every move in a review leaves each one scheduled, armed,
told, or reported. -/

namespace ProgressiveReviewer.Wakeups

open Library Threads

section Told

variable {unit : ReviewUnit} {token : Option Token} {history : List Record} {thread : ThreadId}
  {comment : Message} {record : Record}

theorem Told.cons (asks : ¬ record.Asks unit thread comment)
    (fails : ∀ notice e removed, record = .outcome notice (some e) removed →
      token ≠ some notice.token)
    (told : Told unit token history thread comment) :
    Told unit token (record :: history) thread comment := by
  refine told.imp ?_ fun since => ⟨asks, .inr since⟩
  rintro ⟨notice, mem, named, access, through, unfailed⟩
  refine ⟨notice, List.mem_cons_of_mem _ mem, named, access, through, fun e removed failed => ?_⟩
  rcases List.mem_cons.mp failed with same | old
  · exact fails notice e removed same.symm access
  · exact unfailed e removed old

theorem told_of_failure {failure : WakeupFailure} :
    Told unit token (.published (.wakeup unit (some failure)) :: history) thread comment :=
  .inr ⟨id, .inl rfl⟩

end Told

namespace Wakeup

variable {wakeup : Wakeup} {sequence : Nat} {retry : Bool}

theorem needsPoll_iff : wakeup.needsPoll = true ↔ wakeup.notifiedThrough < wakeup.requestedThrough :=
  decide_eq_true_iff

theorem unchangedSince_iff : wakeup.unchangedSince sequence = true ↔
    wakeup.requestedThrough = sequence ∧ wakeup.notifiedThrough = sequence := by
  simp [unchangedSince]

@[simp] theorem requestedThrough_request :
    (wakeup.request sequence retry).requestedThrough = sequence := by
  cases retry <;> rfl

theorem notifiedThrough_request : (wakeup.request sequence retry).notifiedThrough =
    if retry then 0 else wakeup.notifiedThrough := by
  cases retry <;> rfl

end Wakeup

namespace Channel

variable {unit : ReviewUnit} {c c' : Channel} {book : ReviewThreads} {retry : Bool}

/-- How the worker still tells of a pending comment, or told of it. -/
def Covered (unit : ReviewUnit) (c : Channel) (thread : ReviewThread) (comment : Message) : Prop :=
  c.scheduled.isSome ∨
  (∃ wakeup, c.wakeup = some wakeup ∧ wakeup.needsPoll = true ∧
    comment.sequence ≤ wakeup.requestedThrough) ∨
  Told unit c.token c.history thread.id comment

/-- What holds of a review between two moves. A comment within the notified watermark was told,
unless a Retry is on its way. -/
structure Inv (unit : ReviewUnit) (c : Channel) : Prop where
  sound : ∀ book, c.book = some book → book.Sound
  bounded : ∀ book wakeup, c.book = some book → c.wakeup = some wakeup →
    wakeup.requestedThrough ≤ book.sequence ∧ wakeup.notifiedThrough ≤ book.sequence
  idle : c.book = none → c.wakeup = none
  marked : ∀ book wakeup thread comment, c.book = some book → c.wakeup = some wakeup →
    book.Unanswered thread comment → comment.sequence ≤ wakeup.notifiedThrough →
      c.scheduled = some ⟨true⟩ ∨ Told unit c.token c.history thread.id comment
  covered : ∀ book thread comment, c.book = some book → thread ∈ book.threads →
    book.commentFor c.recipient thread comment = true → c.Covered unit thread comment

theorem waits_of_commentFor {thread : ReviewThread} {comment : Message}
    (held : c.book = some book) (mem : thread ∈ book.threads)
    (waiting : book.commentFor c.recipient thread comment = true) : c.waits = true := by
  rw [waits, held]
  exact ReviewThreads.hasNewMessagesFor_iff.mpr
    ⟨thread, mem, ReviewThreads.pendingFor_iff.mpr ⟨comment, waiting⟩⟩

@[simp] theorem book_reschedule : (c.reschedule retry).book = c.book := by
  unfold reschedule; split_ifs <;> rfl

@[simp] theorem recipient_reschedule : (c.reschedule retry).recipient = c.recipient := by
  unfold reschedule; split_ifs <;> rfl

@[simp] theorem token_reschedule : (c.reschedule retry).token = c.token := by
  unfold reschedule; split_ifs <;> rfl

@[simp] theorem wakeup_reschedule : (c.reschedule retry).wakeup = c.wakeup := by
  unfold reschedule; split_ifs <;> rfl

@[simp] theorem history_reschedule : (c.reschedule retry).history = c.history := by
  unfold reschedule; split_ifs <;> rfl

theorem scheduled_reschedule (waits : c.waits = true) :
    (c.reschedule retry).scheduled = some ⟨(c.scheduled.getD {}).retry || retry⟩ := by
  rw [reschedule, if_pos waits]

/-- A Retry on its way stays so. -/
theorem retries_reschedule (retries : c.scheduled = some ⟨true⟩) :
    (c.reschedule retry).scheduled = some ⟨true⟩ := by
  unfold reschedule
  split_ifs
  · simp [retries]
  · exact retries

/-- Once something that waits is scheduled, everything that waits is covered. -/
theorem covered_reschedule {thread : ReviewThread} {comment : Message}
    (held : (c.reschedule retry).book = some book) (mem : thread ∈ book.threads)
    (waiting : book.commentFor (c.reschedule retry).recipient thread comment = true) :
    (c.reschedule retry).Covered unit thread comment := by
  rw [book_reschedule] at held
  rw [recipient_reschedule] at waiting
  refine .inl ?_
  rw [scheduled_reschedule (waits_of_commentFor held mem waiting)]
  rfl

namespace Inv

variable (inv : Inv unit c)
include inv

theorem positive {thread : ReviewThread} {comment : Message} (held : c.book = some book)
    (waits : book.Unanswered thread comment) : 0 < comment.sequence :=
  ((inv.sound book held).bounded comment
    (ReviewThreads.mem_messages.mpr ⟨thread, waits.held, waits.mem⟩)).1

/-- A request for the latest pending comment covers every pending one, unless it is within the
watermark. -/
theorem requested {sequence : Nat} (told : c.pending = some sequence) :
    ∃ book, c.book = some book ∧ 0 < sequence ∧ sequence ≤ book.sequence ∧
      ∀ thread comment, thread ∈ book.threads →
        book.commentFor c.recipient thread comment = true → comment.sequence ≤ sequence := by
  obtain ⟨book, held, told⟩ := Option.bind_eq_some_iff.mp told
  have sound := inv.sound book held
  obtain ⟨positive, within⟩ := ReviewThreads.told_bounds sound told
  exact ⟨book, held, positive, within,
    fun thread comment mem waits => ReviewThreads.le_told sound told mem waits⟩

end Inv

variable {strict : Prop}

/-- After a request that starts from nothing, what waits is armed. -/
theorem Inv.fresh {sequence : Nat} {token : Token} {scheduled : Option Notification}
    {history : List Record} (inv : Inv unit c) (told : c.pending = some sequence) (retry : Bool) :
    Inv unit { c with
      scheduled := scheduled
      token := some token
      wakeup := some (({} : Wakeup).request sequence retry)
      history := history } := by
  obtain ⟨book, held, positive, within, latest⟩ := inv.requested told
  have started : (({} : Wakeup).request sequence retry).notifiedThrough = 0 := by
    cases retry <;> rfl
  refine ⟨inv.sound, ?_, fun none => absurd (held.symm.trans none) nofun, ?_, ?_⟩
  · rintro other _ held' ⟨⟩
    cases held.symm.trans held'
    rw [Wakeup.requestedThrough_request, started]
    exact ⟨within, Nat.zero_le _⟩
  · rintro other _ thread comment held' ⟨⟩ waits marked
    rw [started] at marked
    exact absurd (inv.positive held' waits) (by omega)
  · intro other thread comment held' mem waits
    cases held.symm.trans held'
    refine .inr (.inl ⟨_, rfl, ?_, ?_⟩)
    · rw [Wakeup.needsPoll_iff, Wakeup.requestedThrough_request, started]
      exact positive
    · rw [Wakeup.requestedThrough_request]
      exact latest thread comment mem waits

/-- Once a failure is published, everything asked before is covered. -/
theorem Inv.published {failure : WakeupFailure} {scheduled : Option Notification}
    {wakeup : Option Wakeup} {history : List Record} (inv : Inv unit c)
    (kept : wakeup = none ∨ wakeup = c.wakeup) :
    Inv unit { c with
      scheduled := scheduled
      wakeup := wakeup
      history := .published (.wakeup unit (some failure)) :: history } := by
  refine ⟨inv.sound, ?_, ?_, fun _ _ _ _ _ _ _ _ => .inr told_of_failure,
    fun _ _ _ _ _ _ => .inr (.inr told_of_failure)⟩
  · rintro book w held rfl
    rcases kept with ⟨⟨⟩⟩ | same
    exact inv.bounded book w held same.symm
  · intro none
    exact kept.elim id fun same => same.trans (inv.idle none)

theorem Inv.revise {base after : ReviewThreads} {new : Option MessageId} (inv : Inv unit c)
    (before : c.book = some base ∨ c.book = none ∧ base.Sound) (receives : Receives base after new) :
    Inv unit ({ c with
      book := some after
      history := new.elim c.history fun id => .posted unit id :: c.history }.reschedule false) := by
  have later := receives.extends_.sequence
  have held : ∀ wakeup, c.wakeup = some wakeup → c.book = some base := fun wakeup has =>
    before.resolve_right fun ⟨absent, _⟩ => by
      rw [inv.idle absent] at has
      cases has
  refine ⟨?_, ?_, ?_, ?_, fun _ _ _ => covered_reschedule⟩
  · intro book has
    rw [book_reschedule] at has
    cases has
    exact receives.extends_.sound
  · intro book wakeup has armed
    rw [book_reschedule] at has
    rw [wakeup_reschedule] at armed
    cases has
    have := inv.bounded base wakeup (held wakeup armed) armed
    exact ⟨this.1.trans later, this.2.trans later⟩
  · intro absent
    rw [book_reschedule] at absent
    cases absent
  · intro book wakeup thread comment has armed waits marked
    rw [book_reschedule] at has
    rw [wakeup_reschedule] at armed
    cases has
    have there := held wakeup armed
    have within := (inv.bounded base wakeup there armed).2
    obtain ⟨kept, same, unanswered⟩ :=
      (receives.extends_.unanswered waits).resolve_left (by omega)
    refine (inv.marked base wakeup kept comment there armed unanswered marked).imp
      retries_reschedule fun told => ?_
    rw [history_reschedule, token_reschedule, ← same]
    cases new with
    | none => exact told
    | some id =>
      refine told.cons (fun asks => ?_) nofun
      exact receives.fresh id rfl comment
        (ReviewThreads.mem_messages.mpr ⟨kept, unanswered.held, unanswered.mem⟩) asks.2.symm

theorem Inv.attend {base after : ReviewThreads} (inv : Inv unit c) (held : c.book = some base)
    (quiet : ReviewThreads.Quiet base after) : Inv unit { c with book := some after } := by
  obtain ⟨ext, shut, agents⟩ := quiet
  have sound := inv.sound base held
  refine ⟨?_, ?_, (fun absent => nomatch absent), ?_, ?_⟩
  · rintro book ⟨⟩
    exact ext.sound
  · rintro book wakeup ⟨⟩ armed
    have := inv.bounded base wakeup held armed
    exact ⟨this.1.trans ext.sequence, this.2.trans ext.sequence⟩
  · rintro book wakeup thread comment ⟨⟩ armed waits marked
    have within := (inv.bounded base wakeup held armed).2
    obtain ⟨kept, same, unanswered⟩ := (ext.unanswered waits).resolve_left (by omega)
    rw [← same]
    exact inv.marked base wakeup kept comment held armed unanswered marked
  · rintro book thread comment ⟨⟩ mem waits
    obtain ⟨kept, memKept, same, waiting⟩ := ext.commentFor sound shut agents mem waits
    have covered := inv.covered base kept comment held memKept waiting
    rw [Covered, same] at covered
    exact covered

theorem Inv.ask {base after : ReviewThreads} {retried : SortedMap ThreadId Nat} {id : ThreadId}
    {asked : Record} (inv : Inv unit c) (held : c.book = some base)
    (releases : Releases base after c.retried retried id)
    (how : asked = .retried unit id ∨ asked = .reopened unit id) :
    Inv unit ({ c with
      book := some after
      retried := retried
      history := asked :: c.history }.reschedule true) := by
  have ext := releases.extends_
  refine ⟨?_, ?_, ?_, ?_, fun _ _ _ => covered_reschedule⟩
  · intro book has
    rw [book_reschedule] at has
    cases has
    exact ext.sound
  · intro book wakeup has armed
    rw [book_reschedule] at has
    rw [wakeup_reschedule] at armed
    cases has
    have := inv.bounded base wakeup held armed
    exact ⟨this.1.trans ext.sequence, this.2.trans ext.sequence⟩
  · intro absent
    rw [book_reschedule] at absent
    cases absent
  · intro book wakeup thread comment has armed waits marked
    rw [book_reschedule] at has
    rw [wakeup_reschedule] at armed
    cases has
    have old := releases.old comment
      (ReviewThreads.mem_messages.mpr ⟨thread, waits.held, waits.mem⟩)
    obtain ⟨kept, same, unanswered⟩ := (ext.unanswered waits).resolve_left (by omega)
    by_cases here : thread.id = id
    · -- The released comments wait for this tab's agent.
      have isOpen := releases.isOpen thread waits.held here
      obtain ⟨last, lastHeld⟩ := ReviewThread.lastComment_isSome waits.mem waits.reviewer
      have waiting : after.commentFor ⟨c.tab, retried⟩ thread comment = true := by
        refine waits.commentFor ext.sound isOpen (.inl ?_)
        rw [here, releases.covers thread waits.held here last lastHeld]
        exact ReviewThread.le_lastComment (ext.sound.increasing thread waits.held) lastHeld
          waits.mem waits.reviewer
      have waits : ({ c with
          book := some after
          retried := retried
          history := asked :: c.history } : Channel).waits = true :=
        waits_of_commentFor rfl waits.held waiting
      refine .inl ?_
      rw [scheduled_reschedule waits, Bool.or_true]
    · refine (inv.marked base wakeup kept comment held armed unanswered marked).imp
        retries_reschedule fun told => ?_
      rw [history_reschedule, token_reschedule, ← same]
      rcases how with rfl | rfl
      · exact told.cons (fun asks => here (same.symm.trans asks.2.symm)) nofun
      · exact told.cons (fun asks => here (same.symm.trans asks.2.symm)) nofun

theorem Inv.request {token : Token} {sequence : Nat} {retry : Bool} (inv : Inv unit c)
    (told : c.pending = some sequence) (scheduled : c.scheduled = some ⟨retry⟩) :
    Inv unit { c with
      scheduled := none
      wakeup := some ((c.wakeup.getD {}).request sequence retry)
      history := .requested unit token sequence :: c.history } := by
  obtain ⟨book, held, positive, within, latest⟩ := inv.requested told
  have stays : ∀ thread comment, book.Unanswered thread comment → comment.sequence ≤
      ((c.wakeup.getD {}).request sequence retry).notifiedThrough →
        Told unit c.token (.requested unit token sequence :: c.history) thread.id comment := by
    intro thread comment waits marked
    have positive := inv.positive held waits
    rw [Wakeup.notifiedThrough_request] at marked
    cases retry with
    | true => exact absurd positive marked.not_gt
    | false =>
      cases armed : c.wakeup with
      | none =>
        rw [armed] at marked
        exact absurd positive marked.not_gt
      | some wakeup =>
        rw [armed] at marked
        rcases inv.marked book wakeup thread comment held armed waits marked with retries | told
        · cases scheduled.symm.trans retries
        · exact told.cons id nofun
  refine ⟨inv.sound, ?_, fun none => absurd (held.symm.trans none) nofun, ?_, ?_⟩
  · rintro other _ held' ⟨⟩
    cases held.symm.trans held'
    rw [Wakeup.requestedThrough_request, Wakeup.notifiedThrough_request]
    refine ⟨within, ?_⟩
    split_ifs
    · exact Nat.zero_le _
    · cases armed : c.wakeup with
      | none => exact Nat.zero_le _
      | some wakeup => exact (inv.bounded book wakeup held armed).2
  · rintro other _ thread comment held' ⟨⟩ waits marked
    cases held.symm.trans held'
    exact .inr (stays thread comment waits marked)
  · intro other thread comment held' mem waits
    cases held.symm.trans held'
    have latest := latest thread comment mem waits
    obtain ⟨unanswered, -⟩ := ReviewThreads.unanswered_of_commentFor mem waits
    by_cases armed : ((c.wakeup.getD {}).request sequence retry).needsPoll = true
    · exact .inr (.inl ⟨_, rfl, armed, by rwa [Wakeup.requestedThrough_request]⟩)
    · rw [Wakeup.needsPoll_iff, Wakeup.requestedThrough_request] at armed
      exact .inr (.inr (stays thread comment unanswered (by omega)))

theorem Inv.interrupt {token : Token} (inv : Inv unit c) :
    Inv unit { c with
      wakeup := c.wakeup.map Wakeup.interrupted
      history := .interrupted unit token :: c.history } := by
  refine ⟨inv.sound, ?_, fun absent => ?_, ?_, ?_⟩
  · intro book wakeup held armed
    obtain ⟨before, has, rfl⟩ := Option.map_eq_some_iff.mp armed
    exact ⟨(inv.bounded book before held has).1, Nat.zero_le _⟩
  · exact congrArg (Option.map _) (inv.idle absent)
  · intro book wakeup thread comment held armed waits marked
    obtain ⟨before, has, rfl⟩ := Option.map_eq_some_iff.mp armed
    exact absurd (inv.positive held waits) (not_lt.mpr marked)
  · intro book thread comment held mem waits
    refine (inv.covered book thread comment held mem waits).imp_right (Or.imp ?_ ?_)
    · rintro ⟨before, has, -, within⟩
      obtain ⟨unanswered, -⟩ := ReviewThreads.unanswered_of_commentFor mem waits
      exact ⟨before.interrupted, congrArg (Option.map _) has,
        Wakeup.needsPoll_iff.mpr ((inv.positive held unanswered).trans_le within), within⟩
    · exact fun told => told.cons id nofun

theorem Inv.send {token : Token} {wakeup : Wakeup} {id : Nat} (inv : Inv unit c)
    (has : c.token = some token) (armed : c.wakeup = some wakeup)
    (fresh : ∀ notice : Notice, notice.id = id → .sent notice ∉ c.history ∧
      ∀ failure removed, .outcome notice failure removed ∉ c.history) :
    Inv unit { c with
      wakeup := some wakeup.sent
      history := .sent ⟨id, unit, token, wakeup.requestedThrough⟩ :: c.history } := by
  have tells : ∀ thread (comment : Message), comment.sequence ≤ wakeup.requestedThrough →
      Told unit c.token (.sent ⟨id, unit, token, wakeup.requestedThrough⟩ :: c.history) thread
        comment := by
    refine fun thread comment within => .inl ⟨_, List.mem_cons_self, rfl, has, within, ?_⟩
    intro e removed failed
    rcases List.mem_cons.mp failed with ⟨⟨⟩⟩ | failed
    exact (fresh _ rfl).2 _ _ failed
  refine ⟨inv.sound, ?_, fun none => ?_, ?_, ?_⟩
  · rintro book _ held ⟨⟩
    have := (inv.bounded book wakeup held armed).1
    exact ⟨this, this⟩
  · rw [inv.idle none] at armed
    cases armed
  · rintro book _ thread comment held ⟨⟩ waits marked
    exact .inr (tells thread.id comment marked)
  · intro book thread comment held mem waits
    rcases inv.covered book thread comment held mem waits with scheduled | ⟨before, has', -, within⟩ | told
    · exact .inl scheduled
    · cases armed.symm.trans has'
      exact .inr (.inr (tells thread.id comment within))
    · exact .inr (.inr (told.cons (fun asks => asks) nofun))

theorem not_asks_of_foreign {record : Record} {thread : ThreadId} {comment : Message}
    (foreign : c.Foreign unit record) : ¬ record.Asks unit thread comment := by
  cases record <;> first | exact fun asks => foreign asks.1 | exact id

theorem Inv.tell {record : Record} (inv : Inv unit c) (foreign : c.Foreign unit record) :
    Inv unit (c.record record) := by
  have keeps : ∀ {thread comment}, Told unit c.token c.history thread comment →
      Told unit c.token (record :: c.history) thread comment := by
    refine fun told => told.cons (not_asks_of_foreign foreign) ?_
    rintro notice e removed rfl
    exact (foreign.resolve_left fun both => nomatch both.1).2
  refine ⟨inv.sound, inv.bounded, inv.idle, ?_, ?_⟩
  · exact fun book wakeup thread comment held armed waits marked =>
      (inv.marked book wakeup thread comment held armed waits marked).imp_right keeps
  · exact fun book thread comment held mem waits =>
      (inv.covered book thread comment held mem waits).imp_right (Or.imp_right keeps)

/-- Every move keeps the pending comments covered. -/
theorem Inv.move (inv : Inv unit c) (moved : Move strict unit c c') : Inv unit c' := by
  have quiet : ∀ {c : Channel}, c.waits = false → ∀ {book thread comment}, c.book = some book →
      thread ∈ book.threads → book.commentFor c.recipient thread comment ≠ true :=
    fun nothing _ _ _ held mem waits =>
      Bool.false_ne_true (nothing.symm.trans (waits_of_commentFor held mem waits))
  cases moved with
  | revise base after new before receives => exact inv.revise before receives
  | attend base after held leaves => exact inv.attend held leaves
  | ask base after retried id asked held releases how => exact inv.ask held releases how
  | cancel nothing =>
    refine ⟨inv.sound, ?_, fun _ => rfl, ?_,
      fun book thread comment held mem waits => absurd waits (quiet nothing held mem)⟩
    · rintro _ _ _ ⟨⟩
    · rintro _ _ _ _ _ ⟨⟩
  | giveUp failure => exact inv.published (.inr rfl)
  | grant token sequence retry told fresh => exact inv.fresh told retry
  | request token sequence retry has told scheduled _ => exact inv.request told scheduled
  | renew token sequence has told lost _ =>
    have moved : Inv unit { c with
        token := some token
        wakeup := some (({} : Wakeup).request sequence false)
        history := .requested unit token sequence :: c.history } := inv.fresh told false
    rwa [← has] at moved
  | interrupt token has => exact inv.interrupt
  | answer nothing =>
    refine ⟨inv.sound, ?_, fun absent => ?_, ?_,
      fun book thread comment held mem waits => absurd waits (quiet nothing held mem)⟩
    · intro book wakeup held armed
      obtain ⟨before, -, rfl⟩ := Option.map_eq_some_iff.mp armed
      exact ⟨Nat.zero_le _, Nat.zero_le _⟩
    · exact congrArg (Option.map _) (inv.idle absent)
    · intro book wakeup thread comment held armed waits marked
      obtain ⟨before, -, rfl⟩ := Option.map_eq_some_iff.mp armed
      exact absurd (inv.positive held waits) (not_lt.mpr marked)
  | send token wakeup id has armed _ _ fresh => exact inv.send has armed fresh
  | drop token failure has => exact inv.published (.inl rfl)
  | mismatch token has waits =>
    refine ⟨?_, ?_, fun _ => ?_, ?_, fun _ _ _ => covered_reschedule⟩
    · rw [book_reschedule]
      exact inv.sound
    · intro _ _ _ armed
      rw [wakeup_reschedule] at armed
      cases armed
    · rw [wakeup_reschedule]
    · intro _ _ _ _ _ armed
      rw [wakeup_reschedule] at armed
      cases armed
  | fail notice e removed failure has sent removes _ =>
    refine inv.published ?_
    cases removed
    · exact .inr rfl
    · exact .inl rfl
  | tell record foreign => exact inv.tell foreign

end Channel

end ProgressiveReviewer.Wakeups
