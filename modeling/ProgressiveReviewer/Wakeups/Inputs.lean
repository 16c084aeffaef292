import ProgressiveReviewer.Wakeups.Views

/-! What each input does to every review the worker holds. -/

namespace ProgressiveReviewer.Wakeups

open Library Threads Relation

namespace State

variable {state state' : State} {strict : Prop} {unit : ReviewUnit} {token : Token}
  {base after : ReviewThreads}

theorem Aside.trans {state'' : State} (first : Aside unit state state')
    (second : Aside unit state' state'') : Aside unit state state'' where
  tab := second.tab.trans first.tab
  books other apart := (second.books other apart).trans (first.books other apart)
  retried other apart := (second.retried other apart).trans (first.retried other apart)
  notifications other apart :=
    (second.notifications other apart).trans (first.notifications other apart)
  token other apart := (second.token other apart).trans (first.token other apart)
  wakeups other apart token has :=
    (second.wakeups other apart token ((first.token other apart).trans has)).trans
      (first.wakeups other apart token has)

theorem aside_record {record : Record} : Aside unit state (state.record record) :=
  ⟨rfl, fun _ _ => rfl, fun _ _ => rfl, fun _ _ => rfl, fun _ _ => rfl, fun _ _ _ _ => rfl⟩

/-! ## Posts and loads -/

theorem channel_resume (kept : state.Kept) :
    (state.resume unit).channel unit = (state.channel unit).reschedule false := by
  rw [resume_eq kept]
  split_ifs with waits
  · exact channel_schedule kept (contains_of_waits waits)
  · exact (if_neg waits).symm

theorem aside_resume (kept : state.Kept) : Aside unit state (state.resume unit) := by
  rw [resume_eq kept]
  split_ifs with waits
  · exact aside_schedule kept (contains_of_waits waits)
  · exact ⟨rfl, fun _ _ => rfl, fun _ _ => rfl, fun _ _ => rfl, fun _ _ => rfl,
      fun _ _ _ _ => rfl⟩

theorem history_resume (kept : state.Kept) : (state.resume unit).history = state.history := by
  rw [resume_eq kept]
  split_ifs
  · exact history_schedule
  · rfl

/-- The document of a review, as its channel has it or loads it. -/
theorem Kept.book (kept : state.Kept) (unit : ReviewUnit) :
    (state.channel unit).book = some (state.stored unit) ∨
      (state.channel unit).book = none ∧ (state.stored unit).Sound := by
  cases held : state.books.lookup unit with
  | none => exact .inr ⟨held, kept.sound unit⟩
  | some book => exact .inl (held.trans (congrArg some (kept.books unit book held)))

theorem Kept.loaded (kept : state.Kept) (loaded : state.books.contains unit = true) :
    (state.channel unit).book = some (state.stored unit) := by
  obtain ⟨book, held⟩ := SortedMap.contains_iff.mp loaded
  exact held.trans (congrArg some (kept.books unit book held))

theorem goes_load (kept : state.Kept) : Goes strict state ((state.load unit).resume unit) := by
  have saved : (state.load unit).Kept := by
    rw [load_eq]
    exact kept.saved (kept.sound unit) (kept.named unit)
  have resumed : Goes strict (state.load unit) ((state.load unit).resume unit) := goes_resume saved
  have aside : Aside unit state ((state.load unit).resume unit) := by
    rw [load_eq] at saved ⊢
    exact aside_saved.trans (aside_resume saved)
  refine .of unit [] resumed.kept aside (history_resume saved) nofun ?_
  rw [channel_resume saved, load_eq, channel_saved]
  exact .single (.revise _ _ none (kept.book unit) (receives_refl (kept.sound unit)))

/-- A function that schedules last. -/
theorem goes_scheduled {mid : State} (records : List Record) {retry : Bool} (kept : mid.Kept)
    (loaded : mid.books.contains unit = true) (aside : Aside unit state mid)
    (history : mid.history = records ++ state.history)
    (about : ∀ record ∈ records, ∀ named, record.unit = some named → named = unit)
    (moves : ReflTransGen (Move strict unit) (state.channel unit)
      ((mid.channel unit).reschedule retry)) :
    Goes strict state (mid.schedule unit retry).2 :=
  .of unit records kept.schedule (aside.trans (aside_schedule kept loaded)) (history_schedule.trans history) about
    (channel_schedule kept loaded ▸ moves)

theorem contains_saved : (state.saved unit after).books.contains unit = true :=
  SortedMap.contains_iff.mpr ⟨after, SortedMap.lookup_insert_self⟩

theorem Kept.asked (kept : state.Kept) {record : Record} (about : record.access = none) :
    (state.record record).Kept := by
  refine kept.recorded (fun unit token same => ?_) (fun unit token same => ?_) fun notice same => ?_
  · cases about.symm.trans same
  · rw [same] at about
    cases about
  · rcases same with same | ⟨_, _, same⟩ <;> rw [same] at about <;> cases about

/-- A post brings its message in and schedules what waits. -/
theorem goes_post {post : Post} {saved : Except String Unit} {now : Nat} (kept : state.Kept) :
    Goes strict state (state.postComment unit post saved now) := by
  unfold postComment
  generalize fromTab post state.tab = post
  have sound := kept.sound unit
  rcases update_cases kept unit saved (·.postNew post now) (fun new after done =>
      (ReviewThreads.postNew_cases sound done).1.reviewUnit) with
    ⟨e, failed⟩ | ⟨new, after, done, updated⟩
  · dsimp only
    rw [failed]
    exact .refl kept
  obtain ⟨ext, shut, named, fresh⟩ := ReviewThreads.postNew_cases sound done
  have keptSaved : (state.saved unit after).Kept :=
    kept.saved ext.sound (ext.reviewUnit.trans (kept.named unit))
  have receives : Receives (state.stored unit) after
      (if new then some post.message.id else none) := by
    refine ⟨ext, shut, fun message mem late => ?_, fun id same message mem equal => ?_⟩
    · obtain ⟨isNew, same⟩ := named message mem late
      rw [isNew, same]
      rfl
    · split_ifs at same with isNew
      exact fresh isNew message mem (equal.trans (Option.some.inj same).symm)
  have move : Move strict unit (state.channel unit) _ :=
    .revise _ _ _ (kept.book unit) receives
  obtain ⟨mid, isMid, keptMid, loaded, aside, records, history, about, channel⟩ :
      ∃ mid, (if new then (state.saved unit after).record (.posted unit post.message.id)
        else state.saved unit after) = mid ∧ mid.Kept ∧ mid.books.contains unit = true ∧
        Aside unit state mid ∧ ∃ records : List Record, mid.history = records ++ state.history ∧
        (∀ record ∈ records, ∀ named, record.unit = some named → named = unit) ∧
        mid.channel unit = { state.channel unit with
          book := some after
          history := (if new then some post.message.id else none).elim (state.channel unit).history
            fun id => .posted unit id :: (state.channel unit).history } := by
    cases new with
    | true =>
      refine ⟨_, rfl, keptSaved.asked rfl, contains_saved, aside_saved.trans aside_record,
        [.posted unit post.message.id], rfl, fun record mem named same => ?_, ?_⟩
      · rw [List.mem_singleton.mp mem] at same
        exact (Option.some.inj same).symm
      · exact congrArg (Channel.record · (.posted unit post.message.id)) channel_saved
    | false => exact ⟨_, rfl, keptSaved, contains_saved, aside_saved, [], rfl, nofun, channel_saved⟩
  have scheduled : Goes strict state (mid.schedule unit false).2 :=
    goes_scheduled records keptMid loaded aside history about (channel ▸ .single move)
  dsimp only
  rw [updated]
  dsimp only
  rw [isMid]
  rw [schedule_eq keptMid loaded] at scheduled ⊢
  exact scheduled

/-! ## Retries and resolutions -/

/-- The comments of a thread that a Retry covers. -/
def released (book : ReviewThreads) (retried : SortedMap ThreadId Nat) (id : ThreadId) :
    SortedMap ThreadId Nat :=
  match (book.thread id).bind ReviewThread.lastComment with
  | none => retried
  | some comment => retried.insert id comment.sequence

theorem release_spec (id : ThreadId) (held : state.books.lookup unit = some after) :
    (state.release unit id).channel unit = { state.channel unit with
      retried := released after (state.channel unit).retried id } ∧
    Aside unit state (state.release unit id) ∧ (state.release unit id).history = state.history ∧
    (state.release unit id).books = state.books ∧ (state.Kept → (state.release unit id).Kept) := by
  have thread : ((state.books.lookup unit).bind fun book => book.thread id) = after.thread id := by
    rw [held]
    rfl
  unfold release released
  rw [thread]
  cases (after.thread id).bind ReviewThread.lastComment with
  | none =>
    exact ⟨rfl, ⟨rfl, fun _ _ => rfl, fun _ _ => rfl, fun _ _ => rfl, fun _ _ => rfl,
      fun _ _ _ _ => rfl⟩, rfl, rfl, fun kept => kept⟩
  | some last =>
    refine ⟨?_, ⟨rfl, fun _ _ => rfl, fun other apart => ?_, fun _ _ => rfl, fun _ _ => rfl,
      fun _ _ _ _ => rfl⟩, rfl, rfl, fun kept => { kept with }⟩
    · simp only [channel, SortedMap.lookup_insert_self]
      rfl
    · exact SortedMap.lookup_insert.trans (if_neg (Ne.symm apart))

theorem releases_released {retried : SortedMap ThreadId Nat} {id : ThreadId}
    (ext : ReviewThreads.Extends base after)
    (old : ∀ message ∈ after.messages, message.sequence ≤ base.sequence)
    (isOpen : ∀ thread, after.thread id = some thread → thread.resolution = .open) :
    Releases base after retried (released after retried id) id where
  extends_ := ext
  old := old
  isOpen thread mem same := isOpen thread (same ▸ ext.sound.thread_self mem)
  covers thread mem same last held := by
    have there : after.thread id = some thread := same ▸ ext.sound.thread_self mem
    rw [released, there, Option.bind_some, held]
    exact SortedMap.lookup_insert_self
  others other apart := by
    unfold released
    split
    · rfl
    · exact SortedMap.lookup_insert.trans (if_neg (Ne.symm apart))

/-- A thread that is retried or reopened comes to this tab's agent. -/
theorem goes_ask {mid : State} {id : ThreadId} {asked : Record} (kept : mid.Kept)
    (aside : Aside unit state mid) (history : mid.history = state.history)
    (held : (state.channel unit).book = some base)
    (channel : mid.channel unit = { state.channel unit with book := some after })
    (ext : ReviewThreads.Extends base after)
    (old : ∀ message ∈ after.messages, message.sequence ≤ base.sequence)
    (isOpen : ∀ thread, after.thread id = some thread → thread.resolution = .open)
    (how : asked = .retried unit id ∨ asked = .reopened unit id) :
    Goes strict state (((mid.record asked).release unit id).schedule unit true).2 := by
  have book : (mid.record asked).books.lookup unit = some after :=
    congrArg Channel.book channel
  obtain ⟨view, asideReleased, sameHistory, sameBooks, keeps⟩ := release_spec id book
  have recorded : (mid.record asked).Kept := kept.asked (by rcases how with rfl | rfl <;> rfl)
  refine goes_scheduled [asked] (keeps recorded) ?_ ((aside.trans aside_record).trans asideReleased)
    (sameHistory.trans (congrArg (asked :: ·) history)) (fun record mem named same => ?_) ?_
  · rw [sameBooks]
    exact SortedMap.contains_iff.mpr ⟨after, book⟩
  · rw [List.mem_singleton.mp mem] at same
    rcases how with rfl | rfl <;> exact (Option.some.inj same).symm
  · have asking : (mid.record asked).channel unit = { state.channel unit with
        book := some after
        history := asked :: (state.channel unit).history } :=
      congrArg (Channel.record · asked) channel
    rw [view, asking]
    exact .single (.ask base after _ id asked held (releases_released ext old isOpen) how)

theorem old_of_sound (sound : base.Sound) :
    ∀ message ∈ base.messages, message.sequence ≤ base.sequence :=
  fun message mem => (sound.bounded message mem).2

theorem goes_retry {id : ThreadId} {saved : Except String Unit} (kept : state.Kept)
    (loaded : state.books.contains unit = true) :
    Goes strict state (state.retry unit id saved).2 := by
  unfold retry
  cases saved with
  | error e => exact .refl kept
  | ok _ =>
    dsimp only
    rw [load_loaded kept loaded]
    cases can : (state.stored unit).retry id with
    | error e => exact .refl kept
    | ok _ =>
      have sound := kept.sound unit
      refine goes_ask kept ⟨rfl, fun _ _ => rfl, fun _ _ => rfl, fun _ _ => rfl, fun _ _ => rfl,
        fun _ _ _ _ => rfl⟩ rfl (kept.loaded loaded) ?_ (.refl sound) (old_of_sound sound)
        (fun thread held => ?_) (.inl rfl)
      · rw [← kept.loaded loaded]
      · unfold ReviewThreads.retry at can
        rw [held] at can
        dsimp only at can
        split_ifs at can with pends
        simp only [ReviewThreads.pending, Bool.and_eq_true, decide_eq_true_eq] at pends
        exact pends.1.1

/-- A document that changes without a new comment. -/
theorem moves_attend {mid : State} (held : (state.channel unit).book = some base)
    (channel : mid.channel unit = { state.channel unit with book := some after })
    (quiet : ReviewThreads.Quiet base after) :
    ReflTransGen (Move strict unit) (state.channel unit) (mid.channel unit) :=
  channel ▸ .single (.attend base after held quiet)

theorem goes_attend (kept : state.Kept) (loaded : state.books.contains unit = true)
    (quiet : ReviewThreads.Quiet (state.stored unit) after) :
    Goes strict state (state.saved unit after) :=
  .of unit [] (kept.saved quiet.1.sound (quiet.1.reviewUnit.trans (kept.named unit))) aside_saved rfl nofun
    (moves_attend (kept.loaded loaded) channel_saved quiet)

/-- An update that brings in no comment. -/
theorem goes_update {α : Type} {saved : Except String Unit}
    {change : ReviewThreads → EStateM.Result String ReviewThreads α} (kept : state.Kept)
    (loaded : state.books.contains unit = true)
    (quiet : ∀ a after, change (state.stored unit) = .ok a after →
      ReviewThreads.Quiet (state.stored unit) after) :
    Goes strict state (state.update unit saved change).2 := by
  rcases update_cases kept unit saved change fun a after done => (quiet a after done).1.reviewUnit with
    ⟨e, failed⟩ | ⟨a, after, done, updated⟩
  · rw [failed]
    exact .refl kept
  · rw [updated]
    exact goes_attend kept loaded (quiet a after done)

/-- Nothing waits any more: the review's notifications are cancelled. -/
theorem goes_cancel (kept : state.Kept) (nothing : state.waitsForAgent unit = false) :
    Goes strict state (state.cancelWakeups unit) := by
  have keeps : (state.cancelWakeups unit).Kept := { kept with
    wakeups := fun token wakeup held => by
      rw [cancelWakeups, SortedMap.lookup_retain] at held
      exact kept.wakeups token wakeup (Option.eq_some_of_filter_eq_some held) }
  refine .of unit [] keeps ⟨rfl, fun _ _ => rfl, fun _ _ => rfl, fun other apart => ?_, fun _ _ => rfl,
    fun other apart token has => ?_⟩ rfl nofun ?_
  · exact SortedMap.lookup_erase.trans (if_neg (Ne.symm apart))
  · obtain ⟨access, held, rfl⟩ := kept.token_iff.mp has
    rw [cancelWakeups, SortedMap.lookup_retain, held]
    cases state.wakeups.lookup token with
    | none => rfl
    | some wakeup => simp [Option.filter, apart]
  · have channel : (state.cancelWakeups unit).channel unit = { state.channel unit with
        scheduled := none
        wakeup := none } := by
      have scheduled : (state.cancelWakeups unit).notifications.lookup unit = none :=
        SortedMap.lookup_erase.trans (if_pos rfl)
      have wakeup : ((state.token unit).bind (state.cancelWakeups unit).wakeups.lookup) = none := by
        cases has : state.token unit with
        | none => rfl
        | some token =>
          obtain ⟨access, held, same⟩ := kept.token_iff.mp has
          rw [Option.bind_some, cancelWakeups, SortedMap.lookup_retain, held]
          cases state.wakeups.lookup token with
          | none => rfl
          | some wakeup => simp [Option.filter, same]
      unfold State.channel
      rw [scheduled]
      congr 1
    rw [channel]
    exact .single (.cancel nothing)

theorem goes_setResolution {id : ThreadId} {resolution : Resolution} {saved : Except String Unit}
    (kept : state.Kept) (loaded : state.books.contains unit = true) :
    Goes strict state (state.setResolution unit id resolution saved).2 := by
  unfold setResolution
  have sound := kept.sound unit
  have quiet : ∀ a after, (state.stored unit).setResolution id resolution = .ok a after →
      ReviewThreads.Extends (state.stored unit) after := fun a after done =>
    .attended sound (ReviewThreads.setResolution_ok done).1
  rcases update_cases kept unit saved (·.setResolution id resolution)
    fun a after done => (quiet a after done).reviewUnit with
      ⟨e, failed⟩ | ⟨a, after, done, updated⟩
  · rw [failed]
    exact .refl kept
  rw [updated]
  have ext := quiet a after done
  have keptSaved : (state.saved unit after).Kept :=
    kept.saved ext.sound (ext.reviewUnit.trans (kept.named unit))
  obtain ⟨attended, changed⟩ := ReviewThreads.setResolution_ok done
  cases resolution with
  | «open» =>
    refine goes_ask keptSaved aside_saved rfl (kept.loaded loaded) channel_saved ext ?_
      (fun thread held => ?_) (.inr rfl)
    · rw [attended.messages]
      exact old_of_sound sound
    · have view : ((state.stored unit).changeThread id ({ · with resolution := .open })).thread id =
          ((state.stored unit).thread id).map ({ · with resolution := .open }) :=
        (Keyed.find_change fun _ => by rfl).trans (if_pos rfl)
      rw [changed, view] at held
      obtain ⟨before, -, rfl⟩ := Option.map_eq_some_iff.mp held
      rfl
  | resolved =>
    have attends : Goes strict state (state.saved unit after) :=
      goes_attend kept loaded (ReviewThreads.quiet_resolved sound done)
    dsimp only
    split_ifs with waits
    · exact attends
    · exact attends.trans (goes_cancel attends.kept (Bool.eq_false_iff.mpr waits))

/-! ## Calls and events -/

/-- A change of one access's wakeup, told by records of its review. -/
theorem goes_wakeup {wakeups : SortedMap Token Wakeup} {access : Access} (records : List Record)
    (held : state.access.lookup token = some access)
    (kept : ({ state with wakeups := wakeups, history := records ++ state.history } : State).Kept)
    (others : ∀ other, other ≠ token → wakeups.lookup other = state.wakeups.lookup other)
    (keptBefore : state.Kept)
    (about : ∀ record ∈ records, ∀ named, record.unit = some named → named = access.reviewUnit)
    (move : ReflTransGen (Move strict access.reviewUnit) (state.channel access.reviewUnit)
      { state.channel access.reviewUnit with
        wakeup := wakeups.lookup token
        history := records ++ state.history }) :
    Goes strict state { state with wakeups := wakeups, history := records ++ state.history } := by
  have has : state.token access.reviewUnit = some token :=
    keptBefore.token_iff.mpr ⟨access, held, rfl⟩
  refine .of access.reviewUnit records kept ⟨rfl, fun _ _ => rfl, fun _ _ => rfl, fun _ _ => rfl,
    fun _ _ => rfl, fun other apart named has' => others named fun same => ?_⟩ rfl about ?_
  · obtain ⟨access', held', rfl⟩ := keptBefore.token_iff.mp has'
    rw [same, held] at held'
    exact apart (congrArg Access.reviewUnit (Option.some.inj held').symm)
  · have channel : ({ state with wakeups := wakeups, history := records ++ state.history } :
        State).channel access.reviewUnit = { state.channel access.reviewUnit with
          wakeup := wakeups.lookup token
          history := records ++ state.history } := by
      have wakeup : (state.token access.reviewUnit).bind wakeups.lookup = wakeups.lookup token := by
        rw [has]
        rfl
      exact congrArg (fun wakeup => ({ state.channel access.reviewUnit with
        wakeup := wakeup
        history := records ++ state.history } : Channel)) wakeup
    rw [channel]
    exact move

theorem wakeup_of_token (kept : state.Kept) {access : Access}
    (held : state.access.lookup token = some access) :
    (state.channel access.reviewUnit).wakeup = state.wakeups.lookup token ∧
      (state.channel access.reviewUnit).token = some token := by
  have has : state.token access.reviewUnit = some token := kept.token_iff.mpr ⟨access, held, rfl⟩
  exact ⟨by simp only [channel, has, Option.bind_some], has⟩

theorem modify_others {change : Wakeup → Wakeup} {other : Token} (apart : other ≠ token) :
    (state.wakeups.modify token change).lookup other = state.wakeups.lookup other :=
  SortedMap.lookup_modify.trans (if_neg (Ne.symm apart))

theorem Kept.modified {change : Wakeup → Wakeup} (kept : state.Kept) :
    ({ state with wakeups := state.wakeups.modify token change } : State).Kept :=
  { kept with
    wakeups := fun other wakeup held => by
      obtain ⟨_, found⟩ := SortedMap.contains_iff.mp
        (SortedMap.contains_modify.symm.trans (SortedMap.contains_iff.mpr ⟨wakeup, held⟩))
      exact kept.wakeups other _ found }

theorem goes_answered (access : Access) (kept : state.Kept)
    (held : state.access.lookup token = some access)
    (nothing : state.waitsForAgent access.reviewUnit = false) :
    Goes strict state { state with wakeups := state.wakeups.modify token Wakeup.answered } := by
  obtain ⟨wakeup, -⟩ := wakeup_of_token kept held
  refine goes_wakeup [] held kept.modified (fun other apart => modify_others apart) kept
    nofun ?_
  rw [SortedMap.lookup_modify, if_pos rfl, ← wakeup]
  exact .single (.answer nothing)

theorem goes_request {operation : Operation} {port : Port} {written : Except String Unit} {now : Nat}
    (kept : state.Kept) : Goes strict state (state.request token operation port written now).2 := by
  unfold request
  split
  · exact .refl kept
  · exact .refl kept
  · exact .refl kept
  next access _ done held _ =>
  have loaded := kept.shown token access held
  rw [load_loaded kept loaded]
  have sound := kept.sound access.reviewUnit
  cases operation with
  | explore | listThreads | getNewMessages => exact .refl kept
  | getThread id =>
    dsimp only
    split <;> exact .refl kept
  | reply post =>
    have quiet : ∀ id after, (state.stored access.reviewUnit).answer post now = .ok id after →
        ReviewThreads.Quiet (state.stored access.reviewUnit) after :=
      fun _ _ done => ReviewThreads.quiet_answer sound done
    have updated : Goes strict state
        (state.update access.reviewUnit (.ok done) (·.answer post now)).2 := goes_update kept loaded quiet
    rcases update_cases kept access.reviewUnit (.ok done) (·.answer post now)
      fun id after done => (quiet id after done).1.reviewUnit with
        ⟨e, failed⟩ | ⟨id, after, done, changed⟩
    · dsimp only
      rw [failed]
      exact .refl kept
    · rw [changed] at updated
      dsimp only
      rw [changed]
      dsimp only
      split_ifs with waits
      · exact updated
      · rw [kept.keyed token access held]
        exact updated.trans
          (goes_answered access updated.kept held (Bool.eq_false_iff.mpr waits))

/-- What a command does that goes on only in a review the worker has shown. -/
theorem goes_threadCommand {command : ThreadCommand} {written : Except String Unit} {now : Nat}
    (kept : state.Kept) (shown : Worker.Shown state command) :
    Goes strict state (state.threadCommand written now command) := by
  cases command with
  | load unit =>
    cases written with
    | error e => exact .refl kept
    | ok _ => exact goes_load kept
  | post unit post => exact goes_post kept
  | setResolution unit thread resolution => exact goes_report (goes_setResolution kept shown)
  | markRepliesRead unit messages =>
    refine goes_report (goes_update kept shown ?_)
    rintro _ after ⟨⟩
    exact ReviewThreads.quiet_markRepliesRead (kept.sound unit) messages
  | markRead unit thread through =>
    refine goes_report (goes_update kept shown ?_)
    exact fun _ _ done => ReviewThreads.quiet_markRead (kept.sound unit) done
  | retry unit thread => exact goes_report (goes_retry kept shown)

/-! ## Agents that are released or found again -/

theorem lookup_of_mem_values (kept : state.Kept) {access : Access}
    (mem : access ∈ state.access.values) : state.access.lookup access.token = some access := by
  obtain ⟨token, held⟩ := SortedMap.mem_values.mp mem
  exact kept.keyed token access held ▸ held

theorem Kept.granted (kept : state.Kept) {access : Access}
    (held : state.access.lookup token = some access) {unit : ReviewUnit} {named : Token}
    (same : some (access.reviewUnit, token) = some (unit, named)) :
    .granted unit named ∈ state.history := by
  cases same
  exact kept.accessed token access held

theorem goes_interrupt (access : Access) (kept : state.Kept)
    (held : state.access.lookup token = some access) :
    Goes strict state ({ state with wakeups := state.wakeups.modify token Wakeup.interrupted
      }.record (.interrupted access.reviewUnit token)) := by
  obtain ⟨wakeup, has⟩ := wakeup_of_token kept held
  have interrupted : ({ state with
      wakeups := state.wakeups.modify token Wakeup.interrupted } : State).Kept := kept.modified
  refine goes_wakeup [.interrupted access.reviewUnit token] held
    (interrupted.recorded (fun _ _ => kept.granted held) nofun nofun)
    (fun other apart => modify_others apart) kept (fun record mem named same => ?_) ?_
  · rw [List.mem_singleton.mp mem] at same
    exact (Option.some.inj same).symm
  · rw [SortedMap.lookup_modify, if_pos rfl, ← wakeup]
    exact .single (.interrupt token has)

theorem goes_interruptWakeups {pane : PaneId} (kept : state.Kept) :
    Goes strict state (state.interruptWakeups pane) := by
  unfold interruptWakeups
  have held : ∀ access ∈ state.access.values, state.access.lookup access.token = some access :=
    fun _ => lookup_of_mem_values kept
  generalize state.access.values = accesses at held
  induction accesses generalizing state with
  | nil => exact .refl kept
  | cons access rest ih =>
    rw [List.foldl_cons]
    have later := fun other mem => held other (List.mem_cons_of_mem _ mem)
    split_ifs with here
    · have first : Goes strict state _ :=
        goes_interrupt access kept (held access List.mem_cons_self)
      exact first.trans (ih first.kept later)
    · exact ih kept later

/-- A request does not make a comment told again. -/
theorem renews_requested {history : List Record} {unit' : ReviewUnit} {token' : Token}
    {through through' : Nat} :
    Renews (.requested unit' token' through' :: history) unit token through ↔
      Renews history unit token through := by
  unfold Renews Lost
  rw [Since.cons_iff id id, Since.cons_iff id id]

/-- What asking for a wakeup leaves of the tables and the other reviews. -/
theorem requestWakeup_spec {access : Access} {sequence : Nat} (retry : Bool) (kept : state.Kept)
    (held : state.access.lookup access.token = some access)
    (told : state.pendingSequence access.reviewUnit = some sequence) :
    (state.requestWakeup access retry).Kept ∧
    Aside access.reviewUnit state (state.requestWakeup access retry) ∧
    (state.requestWakeup access retry).history =
      .requested access.reviewUnit access.token sequence :: state.history ∧
    (state.requestWakeup access retry).channel access.reviewUnit =
      { state.channel access.reviewUnit with
        wakeup := some (((state.channel access.reviewUnit).wakeup.getD {}).request sequence retry)
        history := .requested access.reviewUnit access.token sequence :: state.history } := by
  obtain ⟨wakeup, has⟩ := wakeup_of_token kept held
  have requested : state.requestWakeup access retry = { state with
      wakeups := state.wakeups.insert access.token
        (((state.wakeups.lookup access.token).getD {}).request sequence retry)
      }.record (.requested access.reviewUnit access.token sequence) := by
    unfold requestWakeup
    rw [told]
  rw [requested, wakeup]
  generalize ((state.wakeups.lookup access.token).getD {}).request sequence retry = asked
  have inserted : ({ state with
      wakeups := state.wakeups.insert access.token asked } : State).Kept := { kept with
    wakeups := fun token armed found => by
      rw [SortedMap.lookup_insert] at found
      split_ifs at found with same
      · exact same ▸ ⟨access, held⟩
      · exact kept.wakeups token armed found }
  refine ⟨inserted.recorded (fun _ _ => kept.granted held) nofun nofun,
    ⟨rfl, fun _ _ => rfl, fun _ _ => rfl, fun _ _ => rfl, fun _ _ => rfl,
      fun other apart token has' => SortedMap.lookup_insert.trans (if_neg fun same => ?_)⟩, rfl, ?_⟩
  · obtain ⟨access', held', rfl⟩ := kept.token_iff.mp has'
    rw [← same, held] at held'
    exact apart (congrArg Access.reviewUnit (Option.some.inj held').symm)
  · have armed : (state.token access.reviewUnit).bind
        (state.wakeups.insert access.token asked).lookup = some asked := by
      rw [show state.token access.reviewUnit = some access.token from has]
      exact SortedMap.lookup_insert_self
    exact congrArg (fun wakeup => ({ state.channel access.reviewUnit with
      wakeup := wakeup
      history := .requested access.reviewUnit access.token sequence :: state.history } : Channel))
      armed

theorem about_requested {access : Access} {sequence : Nat} :
    ∀ record ∈ [Record.requested access.reviewUnit access.token sequence],
      ∀ named, record.unit = some named → named = access.reviewUnit := by
  intro record mem named same
  rw [List.mem_singleton.mp mem] at same
  exact (Option.some.inj same).symm

theorem goes_renew (access : Access) (kept : state.Kept)
    (held : state.access.lookup access.token = some access)
    (lost : state.wakeups.lookup access.token = none)
    (plain : ∀ sequence, state.pendingSequence access.reviewUnit = some sequence → strict →
      ¬ Renews state.history access.reviewUnit access.token sequence) :
    Goes strict state (state.requestWakeup access false) := by
  cases told : state.pendingSequence access.reviewUnit with
  | none =>
    unfold requestWakeup
    rw [told]
    exact .refl kept
  | some sequence =>
    obtain ⟨wakeup, has⟩ := wakeup_of_token kept held
    obtain ⟨requested, aside, history, channel⟩ :=
      requestWakeup_spec false kept held told
    refine .of access.reviewUnit [.requested access.reviewUnit access.token sequence] requested
      aside history about_requested ?_
    rw [channel, wakeup, lost]
    exact .single (.renew access.token sequence has told (wakeup.trans lost) (plain sequence told))

/-- What detecting an agent in a pane may ask for: nothing it was told of before an error. -/
def ResumesNew (state : State) (pane : PaneId) (port : Port) : Prop :=
  ∀ access ∈ state.access.values, state.resumable pane port access = true →
    ∀ sequence, state.pendingSequence access.reviewUnit = some sequence →
      ¬ Renews state.history access.reviewUnit access.token sequence

theorem pendingSequence_requestWakeup {access : Access} {retry : Bool} {unit : ReviewUnit} :
    (state.requestWakeup access retry).pendingSequence unit = state.pendingSequence unit := by
  unfold requestWakeup
  split <;> rfl

theorem goes_resumeAccess {pane : PaneId} {port : Port} (kept : state.Kept)
    (plain : strict → state.ResumesNew pane port) :
    Goes strict state (state.resumeAccess pane port) := by
  unfold resumeAccess
  have nodup : ((state.access.values.filter (state.resumable pane port)).map
      Access.token).Nodup := by
    have tokens : state.access.values.map Access.token = state.access.keys := by
      rw [SortedMap.values, SortedMap.keys, List.map_map]
      refine List.map_congr_left fun entry mem => ?_
      exact kept.keyed entry.1 entry.2 (SortedMap.lookup_eq_some.mpr mem)
    exact (tokens ▸ SortedMap.nodup_keys).sublist (List.filter_sublist.map _)
  have able : ∀ access ∈ state.access.values.filter (state.resumable pane port),
      state.access.lookup access.token = some access ∧
      state.wakeups.lookup access.token = none ∧
      ∀ sequence, state.pendingSequence access.reviewUnit = some sequence → strict →
        ¬ Renews state.history access.reviewUnit access.token sequence := by
    intro access mem
    obtain ⟨mem, resumes⟩ := List.mem_filter.mp mem
    refine ⟨lookup_of_mem_values kept mem, ?_, fun sequence told strictly =>
      plain strictly access mem resumes sequence told⟩
    have absent : state.wakeups.contains access.token = false := by
      simp only [resumable, Bool.and_eq_true, Bool.not_eq_true'] at resumes
      exact resumes.1.2
    rw [← SortedMap.lookup_isSome] at absent
    exact Option.not_isSome_iff_eq_none.mp (Bool.eq_false_iff.mp absent)
  clear plain
  generalize state.access.values.filter (state.resumable pane port) = accesses at able nodup
  induction accesses generalizing state with
  | nil => exact .refl kept
  | cons access rest ih =>
    obtain ⟨held, lost, plain⟩ := able access List.mem_cons_self
    have first : Goes strict state (state.requestWakeup access false) :=
      goes_renew access kept held lost plain
    refine first.trans (ih first.kept (fun other mem => ?_) (List.nodup_cons.mp nodup).2)
    obtain ⟨held', lost', plain'⟩ := able other (List.mem_cons_of_mem _ mem)
    have apart : access.token ≠ other.token := fun same =>
      (List.nodup_cons.mp nodup).1 (same ▸ List.mem_map_of_mem mem)
    rw [pendingSequence_requestWakeup]
    unfold requestWakeup
    split
    · exact ⟨held', lost', plain'⟩
    · refine ⟨held', (SortedMap.lookup_insert.trans (if_neg apart)).trans lost',
        fun sequence told strictly renews => ?_⟩
      exact plain' sequence told strictly (renews_requested.mp renews)

/-! ## Outcomes -/

/-- An outcome may be one whose wakeup was not asked, or told, once more and looks as it did. -/
def FailsOwn (state : State) (notice : Notice) : Prop :=
  (state.wakeups.lookup notice.token).any (·.unchangedSince notice.through) = true →
    ¬ Since (· = .sent notice) (Record.Repeats notice) state.history

theorem Kept.outcome (kept : state.Kept) {notice : Notice} (mem : .sent notice ∈ state.history)
    (failure : Option Prompts.PromptError) (removed : Bool) :
    (state.record (.outcome notice failure removed)).Kept := by
  refine kept.recorded (fun unit token same => kept.known _ mem unit token same) nofun ?_
  rintro other (⟨⟨⟩⟩ | ⟨_, _, ⟨⟩⟩)
  exact kept.sent notice (.inl mem)

theorem goes_notified {notice : Notice} {result : Except Prompts.PromptError Unit}
    (kept : state.Kept) (mem : .sent notice ∈ state.history)
    (own : strict → result ≠ .ok () → state.FailsOwn notice) :
    Goes strict state (state.notified notice result) := by
  unfold notified
  cases result with
  | ok _ =>
    exact ⟨kept.outcome mem none false, fun _ => .single (.tell _ (.inl ⟨rfl, rfl⟩))⟩
  | error e =>
    dsimp only
    cases held : state.access.lookup notice.token with
    | none =>
      have absent : state.wakeups.lookup notice.token = none := by
        cases found : state.wakeups.lookup notice.token with
        | none => rfl
        | some wakeup =>
          obtain ⟨access, held'⟩ := kept.wakeups notice.token wakeup found
          cases held.symm.trans held'
      rw [absent]
      have told : Goes strict state (state.record (.outcome notice (some e) false)) :=
        ⟨kept.outcome mem (some e) false, fun unit => .single (.tell _ (.inr ⟨nofun, fun has => by
          obtain ⟨access, held', -⟩ := kept.token_iff.mp has
          cases held.symm.trans held'⟩))⟩
      exact told.trans (goes_publish told.kept _)
    | some access =>
      obtain ⟨wakeup, has⟩ := wakeup_of_token kept held
      have named : notice.reviewUnit = access.reviewUnit :=
        kept.owner _ _ notice.token (kept.known _ mem _ _ rfl) (kept.accessed _ _ held)
      generalize removes : (state.wakeups.lookup notice.token).any
        (·.unchangedSince notice.through) = removed
      have erased : ({ state with wakeups :=
          if removed then state.wakeups.erase notice.token else state.wakeups } : State).Kept :=
        { kept with
          wakeups := fun token wakeup found => by
            split_ifs at found
            · rw [SortedMap.lookup_erase] at found
              split_ifs at found
              exact kept.wakeups token wakeup found
            · exact kept.wakeups token wakeup found }
      refine goes_wakeup [.published (.wakeup access.reviewUnit (some ⟨notice.through, e.text⟩)),
          .outcome notice (some e) removed] held
        ((erased.outcome mem (some e) removed).published _) (fun other apart => ?_) kept
        (fun record mem unit same => ?_) ?_
      · split_ifs
        · exact SortedMap.lookup_erase.trans (if_neg (Ne.symm apart))
        · rfl
      · rcases List.mem_cons.mp mem with rfl | mem
        · cases same
        · rw [List.mem_singleton.mp mem] at same
          exact (Option.some.inj same).symm.trans named
      · have after : (if removed then state.wakeups.erase notice.token else state.wakeups).lookup
            notice.token = if removed then none else (state.channel access.reviewUnit).wakeup := by
          rw [wakeup]
          split_ifs
          · exact SortedMap.lookup_erase.trans (if_pos rfl)
          · rfl
        have move : Move strict access.reviewUnit (state.channel access.reviewUnit) _ :=
          .fail notice e removed ⟨notice.through, e.text⟩ has mem (by rw [wakeup, removes])
            fun strictly isRemoved => own strictly nofun (removes.trans isRemoved)
        rw [← after] at move
        exact .single move

theorem Kept.sending_erase (kept : state.Kept) (notice : Notice) :
    ({ state with sending := state.sending.erase notice } : State).Kept :=
  { kept with sending := fun other mem => kept.sending other (List.mem_of_mem_erase mem) }

end State

end ProgressiveReviewer.Wakeups
