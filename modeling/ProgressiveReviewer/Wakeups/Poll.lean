import ProgressiveReviewer.Wakeups.Inputs

/-! What the two halves of a poll do to every review the worker holds. -/

namespace ProgressiveReviewer.Wakeups

open Library Threads Relation

namespace State

variable {state state' : State} {strict : Prop} {unit : ReviewUnit} {token : Token} {port : Port}

/-! ## Scheduled notifications -/

/-- The scheduled notification of a review is taken. -/
def unscheduled (state : State) (unit : ReviewUnit) : State :=
  { state with notifications := state.notifications.erase unit }

theorem Kept.unscheduled (kept : state.Kept) (unit : ReviewUnit) : (state.unscheduled unit).Kept := { kept with }

theorem channel_unscheduled :
    (state.unscheduled unit).channel unit = { state.channel unit with scheduled := none } := by
  have taken : (state.notifications.erase unit).lookup unit = none :=
    SortedMap.lookup_erase.trans (if_pos rfl)
  simp only [channel, State.unscheduled, taken]
  rfl

theorem aside_unscheduled : Aside unit state (state.unscheduled unit) :=
  ⟨rfl, fun _ _ => rfl, fun _ _ => rfl,
    fun _ apart => SortedMap.lookup_erase.trans (if_neg (Ne.symm apart)), fun _ _ => rfl,
    fun _ _ _ _ => rfl⟩

/-- Something that waits has a latest comment. -/
theorem pending_of_waits (kept : state.Kept) (waits : state.waitsForAgent unit = true) :
    ∃ sequence, state.pendingSequence unit = some sequence := by
  obtain ⟨book, held⟩ := SortedMap.contains_iff.mp (contains_of_waits waits)
  have sound : book.Sound := kept.books unit book held ▸ kept.sound unit
  unfold waitsForAgent at waits
  unfold pendingSequence
  rw [held] at waits ⊢
  exact Option.isSome_iff_exists.mp ((ReviewThreads.told_isSome sound).trans waits)

theorem goes_giveUp {e : String} (kept : state.Kept) (waits : state.waitsForAgent unit = true) :
    Goes strict state ((state.unscheduled unit).undelivered (some unit) e) := by
  obtain ⟨sequence, told⟩ := pending_of_waits kept waits
  have published : (state.unscheduled unit).undelivered (some unit) e =
      (state.unscheduled unit).publish (.wakeup unit (some ⟨sequence, e⟩)) := by
    have same : (some unit).bind (state.unscheduled unit).pendingSequence = some sequence := told
    unfold undelivered
    rw [same]
    rfl
  rw [published]
  refine .of unit [.published (.wakeup unit (some ⟨sequence, e⟩))] ((kept.unscheduled unit).published _)
    (aside_unscheduled.trans aside_record) rfl (fun record mem named same => ?_) ?_
  · rw [List.mem_singleton.mp mem] at same
    cases same
  · have channel : ((state.unscheduled unit).publish
        (.wakeup unit (some ⟨sequence, e⟩))).channel unit =
        ((state.unscheduled unit).channel unit).record
          (.published (.wakeup unit (some ⟨sequence, e⟩))) := rfl
    rw [channel, channel_unscheduled]
    exact .single (.giveUp ⟨sequence, e⟩)

theorem granted_spec {accesses : List Access} {access : Access}
    (found : granted unit port accesses = .ok (some access)) :
    access ∈ accesses ∧ access.reviewUnit = unit := by
  induction accesses with
  | nil => cases found
  | cons first rest ih =>
    rw [granted] at found
    split_ifs at found with named
    · split at found
      · cases found
      · cases found
        exact ⟨List.mem_cons_self, named⟩
      · exact (ih found).imp_left (List.mem_cons_of_mem _)
    · exact (ih found).imp_left (List.mem_cons_of_mem _)

/-- Preparing the notification of a review asks for nothing the agent was told of before an error
took its wakeup away, unless it is a Retry. -/
def PreparesNew (state : State) (unit : ReviewUnit) (port : Port) : Prop :=
  state.notifications.lookup unit = some ⟨false⟩ → ∀ access sequence,
    (resolved port).isOk = true → granted unit port state.access.values = .ok (some access) →
      state.pendingSequence unit = some sequence →
        ¬ Renews state.history unit access.token sequence

/-- The access a review has is asked to be told. -/
theorem goes_requested {access : Access} {retry : Bool} (kept : state.Kept)
    (held : state.access.lookup access.token = some access)
    (scheduled : state.notifications.lookup access.reviewUnit = some ⟨retry⟩)
    (waits : state.waitsForAgent access.reviewUnit = true)
    (plain : ∀ sequence, state.pendingSequence access.reviewUnit = some sequence → strict →
      retry = false → ¬ Renews state.history access.reviewUnit access.token sequence) :
    Goes strict state ((state.unscheduled access.reviewUnit).requestWakeup access retry) := by
  obtain ⟨sequence, told⟩ := pending_of_waits kept waits
  obtain ⟨wakeup, has⟩ := wakeup_of_token kept held
  obtain ⟨requested, aside, history, channel⟩ := requestWakeup_spec retry
    (kept.unscheduled access.reviewUnit) held told
  refine .of access.reviewUnit [.requested access.reviewUnit access.token sequence] requested
    (aside_unscheduled.trans aside) history about_requested ?_
  rw [channel, channel_unscheduled]
  exact .single (.request access.token sequence retry has told scheduled (plain sequence told))

theorem notifications_requestWakeup {access : Access} {retry : Bool} :
    (state.requestWakeup access retry).notifications = state.notifications := by
  unfold requestWakeup
  split <;> rfl

/-! ## New accesses -/

/-- What a new access replaces and leaves. -/
def welcomed (state : State) (access : Access) : State :=
  { state.cancelWakeups access.reviewUnit with
    access := (state.access.retain fun _ previous => previous.reviewUnit ≠ access.reviewUnit).insert
      access.token access }.record (.granted access.reviewUnit access.token)

theorem access_welcomed {access : Access} : (state.welcomed access).access.lookup token =
    if access.token = token then some access
    else (state.access.lookup token).filter fun previous =>
      previous.reviewUnit ≠ access.reviewUnit := by
  rw [welcomed, record, SortedMap.lookup_insert, SortedMap.lookup_retain]

/-- An access with a new name. -/
theorem Kept.unnamed (kept : state.Kept)
    (new : ∀ other, .granted other token ∉ state.history) : state.access.lookup token = none := by
  cases held : state.access.lookup token with
  | none => rfl
  | some access => exact absurd (kept.accessed token access held) (new access.reviewUnit)

theorem old_of_welcomed {access previous : Access}
    (held : (state.welcomed access).access.lookup token = some previous) :
    token = access.token ∧ previous = access ∨
      state.access.lookup token = some previous ∧ previous.reviewUnit ≠ access.reviewUnit := by
  rw [access_welcomed] at held
  split_ifs at held with same
  · exact .inl ⟨same.symm, (Option.some.inj held).symm⟩
  · obtain ⟨held, apart⟩ := Option.filter_eq_some_iff.mp held
    exact .inr ⟨held, by simpa using apart⟩

theorem Kept.welcomed {access : Access} (kept : state.Kept)
    (new : ∀ other, .granted other access.token ∉ state.history)
    (loaded : state.books.contains access.reviewUnit = true) : (state.welcomed access).Kept where
  available := kept.available
  sound := kept.sound
  named := kept.named
  books := kept.books
  keyed token previous held := by
    rcases old_of_welcomed held with ⟨rfl, rfl⟩ | ⟨held, -⟩
    · rfl
    · exact kept.keyed token previous held
  single token token' previous previous' held held' same := by
    rcases old_of_welcomed held with ⟨rfl, rfl⟩ | ⟨held, apart⟩ <;>
      rcases old_of_welcomed held' with ⟨rfl, rfl⟩ | ⟨held', apart'⟩
    · rfl
    · exact absurd same.symm apart'
    · exact absurd same apart
    · exact kept.single token token' previous previous' held held' same
  shown token previous held := by
    rcases old_of_welcomed held with ⟨-, rfl⟩ | ⟨held, -⟩
    · exact loaded
    · exact kept.shown token previous held
  wakeups token wakeup held := by
    have found : (state.cancelWakeups access.reviewUnit).wakeups.lookup token = some wakeup := held
    rw [cancelWakeups, SortedMap.lookup_retain] at found
    obtain ⟨found, leaves⟩ := Option.filter_eq_some_iff.mp found
    obtain ⟨previous, held⟩ := kept.wakeups token wakeup found
    rw [held] at leaves
    rw [access_welcomed, held]
    split_ifs
    · exact ⟨access, rfl⟩
    · exact ⟨previous, Option.filter_eq_some_iff.mpr ⟨rfl, by simpa using leaves⟩⟩
  accessed token previous held := by
    rcases old_of_welcomed held with ⟨rfl, rfl⟩ | ⟨held, -⟩
    · exact List.mem_cons_self
    · exact List.mem_cons_of_mem _ (kept.accessed token previous held)
  known record mem unit token same := by
    rcases List.mem_cons.mp mem with rfl | mem
    · cases same
      exact List.mem_cons_self
    · exact List.mem_cons_of_mem _ (kept.known record mem unit token same)
  owner unit unit' token first second := by
    rcases List.mem_cons.mp first with first | first <;>
      rcases List.mem_cons.mp second with second | second
    · cases first
      cases second
      rfl
    · cases first
      exact absurd second (new unit')
    · cases second
      exact absurd first (new unit)
    · exact kept.owner unit unit' token first second
  sent notice mem := by
    rcases mem with mem | ⟨failure, removed, mem⟩ <;> rcases List.mem_cons.mp mem with same | mem
    · cases same
    · exact kept.sent notice (.inl mem)
    · cases same
    · exact kept.sent notice (.inr ⟨failure, removed, mem⟩)
  sending notice mem := List.mem_cons_of_mem _ (kept.sending notice mem)

theorem token_welcomed {access : Access} (kept : state.Kept)
    (new : ∀ other, .granted other access.token ∉ state.history)
    (loaded : state.books.contains access.reviewUnit = true) {other : ReviewUnit} :
    (state.welcomed access).token other =
      if other = access.reviewUnit then some access.token else state.token other := by
  refine Option.ext fun token => ?_
  rw [(kept.welcomed new loaded).token_iff]
  split_ifs with same
  · subst same
    constructor
    · rintro ⟨previous, held, same⟩
      rcases old_of_welcomed held with ⟨rfl, -⟩ | ⟨-, apart⟩
      · rfl
      · exact absurd same apart
    · rintro ⟨⟩
      exact ⟨access, access_welcomed.trans (if_pos rfl), rfl⟩
  · rw [kept.token_iff]
    constructor
    · rintro ⟨previous, held, rfl⟩
      rcases old_of_welcomed held with ⟨-, rfl⟩ | ⟨held, -⟩
      · exact absurd rfl same
      · exact ⟨previous, held, rfl⟩
    · rintro ⟨previous, held, rfl⟩
      have named : access.token ≠ token := by
        rintro rfl
        cases held.symm.trans (kept.unnamed new)
      refine ⟨previous, ?_, rfl⟩
      rw [access_welcomed, if_neg named, held]
      exact Option.filter_eq_some_iff.mpr ⟨rfl, by simpa using same⟩

theorem aside_welcomed {access : Access} (kept : state.Kept)
    (new : ∀ other, .granted other access.token ∉ state.history)
    (loaded : state.books.contains access.reviewUnit = true) :
    Aside access.reviewUnit state (state.welcomed access) where
  tab := rfl
  books _ _ := rfl
  retried _ _ := rfl
  notifications _ apart := SortedMap.lookup_erase.trans (if_neg (Ne.symm apart))
  token _ apart := (token_welcomed kept new loaded).trans (if_neg apart)
  wakeups other apart token has := by
    obtain ⟨previous, held, rfl⟩ := kept.token_iff.mp has
    have same : (state.welcomed access).wakeups = (state.cancelWakeups access.reviewUnit).wakeups :=
      rfl
    rw [same, cancelWakeups, SortedMap.lookup_retain, held]
    cases state.wakeups.lookup token with
    | none => rfl
    | some wakeup => simp [Option.filter, apart]

theorem channel_welcomed {access : Access} (kept : state.Kept)
    (new : ∀ other, .granted other access.token ∉ state.history)
    (loaded : state.books.contains access.reviewUnit = true) :
    (state.welcomed access).channel access.reviewUnit = { state.channel access.reviewUnit with
      scheduled := none
      token := some access.token
      wakeup := none
      history := .granted access.reviewUnit access.token :: state.history } := by
  have token : (state.welcomed access).token access.reviewUnit = some access.token :=
    (token_welcomed kept new loaded).trans (if_pos rfl)
  have scheduled : (state.welcomed access).notifications.lookup access.reviewUnit = none :=
    SortedMap.lookup_erase.trans (if_pos rfl)
  have wakeup : (state.welcomed access).wakeups.lookup access.token = none := by
    cases found : (state.welcomed access).wakeups.lookup access.token with
    | none => rfl
    | some wakeup =>
      have found : (state.cancelWakeups access.reviewUnit).wakeups.lookup access.token =
        some wakeup := found
      rw [cancelWakeups, SortedMap.lookup_retain] at found
      obtain ⟨previous, held⟩ :=
        kept.wakeups access.token wakeup (Option.filter_eq_some_iff.mp found).1
      cases held.symm.trans (kept.unnamed new)
  unfold channel
  rw [token, scheduled, Option.bind_some, wakeup]
  rfl

theorem not_about_of_new (kept : state.Kept)
    (new : ∀ other, .granted other token ∉ state.history) :
    ∀ record ∈ state.history, record.token ≠ some token := by
  intro record mem same
  rw [Record.token_eq] at same
  obtain ⟨⟨unit, named⟩, access, rfl⟩ := Option.map_eq_some_iff.mp same
  exact new unit (kept.known record mem unit _ access)

theorem goes_welcomed {retry : Bool} (access : Access) (kept : state.Kept)
    (new : ∀ other, .granted other access.token ∉ state.history)
    (waits : state.waitsForAgent access.reviewUnit = true) :
    Goes strict state
      (((state.welcomed access).unscheduled access.reviewUnit).requestWakeup access retry) := by
  have loaded := contains_of_waits waits
  obtain ⟨sequence, told⟩ := pending_of_waits kept waits
  have welcomed := kept.welcomed new loaded
  obtain ⟨requested, aside, history, channel⟩ := requestWakeup_spec retry
    (welcomed.unscheduled access.reviewUnit)
    (access_welcomed.trans (if_pos rfl)) told
  refine .of access.reviewUnit [.requested access.reviewUnit access.token sequence,
    .granted access.reviewUnit access.token] requested
    (((aside_welcomed kept new loaded).trans aside_unscheduled).trans aside) history ?_ ?_
  · intro record mem named same
    rcases List.mem_cons.mp mem with rfl | mem
    · exact (Option.some.inj same).symm
    · rw [List.mem_singleton.mp mem] at same
      exact (Option.some.inj same).symm
  · rw [channel, channel_unscheduled, channel_welcomed kept new loaded]
    exact .single (.grant access.token sequence retry told (not_about_of_new kept new))

/-! ## Preparing -/

/-- What is still scheduled once a review's notification was prepared. -/
def TakesOnly (unit : ReviewUnit) (state state' : State) : Prop :=
  ∀ other, state'.notifications.lookup other =
    if other = unit then none else state.notifications.lookup other

theorem takesOnly_erase {state' : State}
    (erased : state'.notifications = state.notifications.erase unit) :
    TakesOnly unit state state' := by
  intro other
  rw [erased, SortedMap.lookup_erase]
  split_ifs with same equal equal
  · rfl
  · exact absurd same.symm equal
  · exact absurd equal.symm same
  · rfl

theorem prepare_spec (kept : state.Kept)
    (new : ∀ token, port.identified = .ok token → ∀ other, .granted other token ∉ state.history)
    (plain : strict → state.PreparesNew unit port) :
    Goes strict state (state.prepare unit port) ∧
      TakesOnly unit state (state.prepare unit port) := by
  unfold prepare
  cases scheduled : state.notifications.lookup unit with
  | none =>
    refine ⟨.refl kept, fun other => ?_⟩
    split_ifs with same
    · exact same ▸ scheduled
    · rfl
  | some notification =>
    obtain ⟨retry⟩ := notification
    dsimp only
    unfold prepareNotification
    split_ifs with nothing
    · exact ⟨goes_cancel kept (by simpa using nothing), takesOnly_erase rfl⟩
    have waits : state.waitsForAgent unit = true := by simpa using nothing
    have givesUp : ∀ e, Goes strict state ((state.unscheduled unit).undelivered (some unit) e) ∧
        TakesOnly unit state ((state.unscheduled unit).undelivered (some unit) e) := by
      refine fun e => ⟨goes_giveUp kept waits, takesOnly_erase ?_⟩
      obtain ⟨sequence, told⟩ := pending_of_waits kept waits
      have same : (some unit).bind (state.unscheduled unit).pendingSequence = some sequence := told
      unfold undelivered
      rw [same]
      rfl
    cases resolves : resolved port with
    | error e => exact givesUp e
    | ok agent =>
      dsimp only
      unfold grant
      cases found : granted unit port state.access.values with
      | error e => exact givesUp e
      | ok found' =>
        cases found' with
        | some access =>
          obtain ⟨mem, rfl⟩ := granted_spec found
          have held := lookup_of_mem_values kept mem
          refine ⟨goes_requested kept held scheduled waits ?_, takesOnly_erase ?_⟩
          · rintro sequence told strictly rfl
            exact plain strictly scheduled access sequence (by rw [resolves]; rfl) found told
          · exact notifications_requestWakeup
        | none =>
          cases named : port.identified with
          | error e => exact givesUp e
          | ok token =>
            refine ⟨goes_welcomed ⟨token, unit, agent⟩ kept (new token named) waits,
              fun other => ?_⟩
            have erased : (((state.welcomed ⟨token, unit, agent⟩).unscheduled unit).requestWakeup
                ⟨token, unit, agent⟩ retry).notifications =
                (state.notifications.erase unit).erase unit := notifications_requestWakeup
            have takes : TakesOnly unit (state.unscheduled unit) _ := takesOnly_erase erased
            have taken := takes other
            refine taken.trans (ite_congr rfl (fun _ => rfl) fun apart => ?_)
            exact SortedMap.lookup_erase.trans (if_neg (Ne.symm apart))

/-! ## Telling -/

/-- No Retry is scheduled. -/
def Calm (state : State) : Prop := ∀ unit, state.notifications.lookup unit ≠ some ⟨true⟩

theorem Calm.schedule (calm : state.Calm) : (state.schedule unit false).2.Calm := by
  intro other retries
  unfold State.schedule at retries
  split_ifs at retries
  · exact calm other retries
  · exact calm other retries
  · exact calm other retries
  · rw [SortedMap.lookup_insert] at retries
    split_ifs at retries
    · cases held : state.notifications.lookup unit with
      | none =>
        rw [held] at retries
        cases retries
      | some notification =>
        rw [held] at retries
        obtain ⟨_ | _⟩ := notification
        · cases retries
        · exact calm unit held
    · exact calm other retries

/-- What an error that takes a wakeup away leaves of the tables and the other reviews. -/
theorem drop_spec {access : Access} (kept : state.Kept)
    (held : state.access.lookup token = some access) :
    (state.drop access.reviewUnit token).Kept ∧
    Aside access.reviewUnit state (state.drop access.reviewUnit token) ∧
    (state.drop access.reviewUnit token).channel access.reviewUnit =
      { state.channel access.reviewUnit with
        wakeup := none
        history := .dropped access.reviewUnit token :: state.history } := by
  have has : state.token access.reviewUnit = some token := kept.token_iff.mpr ⟨access, held, rfl⟩
  have erased : ({ state with wakeups := state.wakeups.erase token } : State).Kept := { kept with
    wakeups := fun other wakeup found => by
      rw [SortedMap.lookup_erase] at found
      split_ifs at found
      exact kept.wakeups other wakeup found }
  refine ⟨erased.recorded (fun _ _ => kept.granted held) nofun nofun,
    ⟨rfl, fun _ _ => rfl, fun _ _ => rfl, fun _ _ => rfl, fun _ _ => rfl,
      fun other apart named has' => SortedMap.lookup_erase.trans (if_neg fun same => ?_)⟩, ?_⟩
  · obtain ⟨access', held', rfl⟩ := kept.token_iff.mp has'
    rw [← same, held] at held'
    exact apart (congrArg Access.reviewUnit (Option.some.inj held').symm)
  · have gone : (state.token access.reviewUnit).bind (state.wakeups.erase token).lookup = none := by
      rw [has]
      exact SortedMap.lookup_erase.trans (if_pos rfl)
    exact congrArg (fun wakeup => ({ state.channel access.reviewUnit with
      wakeup := wakeup
      history := .dropped access.reviewUnit token :: state.history } : Channel)) gone

theorem about_dropped {access : Access} :
    ∀ record ∈ [Record.dropped access.reviewUnit token],
      ∀ named, record.unit = some named → named = access.reviewUnit := by
  intro record mem named same
  rw [List.mem_singleton.mp mem] at same
  exact (Option.some.inj same).symm

/-- What kept a wakeup from its agent is published. -/
theorem goes_drop {access : Access} {e : String} (kept : state.Kept)
    (held : state.access.lookup token = some access)
    (waits : state.waitsForAgent access.reviewUnit = true) :
    Goes strict state ((state.drop access.reviewUnit token).undelivered (some access.reviewUnit) e) := by
  obtain ⟨sequence, told⟩ := pending_of_waits kept waits
  obtain ⟨dropped, aside, channel⟩ := drop_spec kept held
  have published : (state.drop access.reviewUnit token).undelivered (some access.reviewUnit) e =
      (state.drop access.reviewUnit token).publish
        (.wakeup access.reviewUnit (some ⟨sequence, e⟩)) := by
    have same : (some access.reviewUnit).bind
        (state.drop access.reviewUnit token).pendingSequence = some sequence := told
    unfold undelivered
    rw [same]
    rfl
  rw [published]
  refine .of access.reviewUnit [.published (.wakeup access.reviewUnit (some ⟨sequence, e⟩)),
    .dropped access.reviewUnit token] (dropped.published _) (aside.trans aside_record) rfl
    (fun record mem named same => ?_) ?_
  · rcases List.mem_cons.mp mem with rfl | mem
    · cases same
    · exact about_dropped record mem named same
  · have recorded : ((state.drop access.reviewUnit token).publish
        (.wakeup access.reviewUnit (some ⟨sequence, e⟩))).channel access.reviewUnit =
        ((state.drop access.reviewUnit token).channel access.reviewUnit).record
          (.published (.wakeup access.reviewUnit (some ⟨sequence, e⟩))) := rfl
    rw [recorded, channel]
    exact .single (.drop token ⟨sequence, e⟩ (kept.token_iff.mpr ⟨access, held, rfl⟩))

/-- An access whose agent is another one now: its review is scheduled again. -/
theorem goes_mismatch {access : Access} (kept : state.Kept)
    (held : state.access.lookup token = some access)
    (waits : state.waitsForAgent access.reviewUnit = true) :
    Goes strict state ((state.drop access.reviewUnit token).schedule access.reviewUnit false).2 := by
  obtain ⟨dropped, aside, channel⟩ := drop_spec kept held
  refine goes_scheduled [.dropped access.reviewUnit token] dropped (contains_of_waits waits) aside rfl
    about_dropped ?_
  rw [channel]
  exact .single (.mismatch token (kept.token_iff.mpr ⟨access, held, rfl⟩) waits)

theorem goes_send {access : Access} {wakeup : Wakeup} (kept : state.Kept)
    (held : state.access.lookup access.token = some access)
    (armed : state.wakeups.lookup access.token = some wakeup) (needs : wakeup.needsPoll = true)
    (calm : state.Calm) : Goes strict state (state.send access wakeup) := by
  obtain ⟨isWakeup, has⟩ := wakeup_of_token kept held
  have fresh : ∀ notice : Notice, notice.id = state.sends → .sent notice ∉ state.history ∧
      ∀ failure removed, .outcome notice failure removed ∉ state.history := fun notice same =>
    ⟨fun mem => (kept.sent notice (.inl mem)).ne same,
      fun failure removed mem => (kept.sent notice (.inr ⟨failure, removed, mem⟩)).ne same⟩
  generalize isNotice : (⟨state.sends, access.reviewUnit, access.token,
    wakeup.sent.notifiedThrough⟩ : Notice) = notice
  have about : notice.reviewUnit = access.reviewUnit ∧ notice.token = access.token ∧
      notice.id = state.sends := by
    rw [← isNotice]
    exact ⟨rfl, rfl, rfl⟩
  have sending : ({ state with
      wakeups := state.wakeups.insert access.token wakeup.sent
      sending := notice :: state.sending
      sends := state.sends + 1
      history := .sent notice :: state.history } : State).Kept := by
    have old : ∀ {unit token}, .granted unit token ∈ Record.sent notice :: state.history →
        .granted unit token ∈ state.history := fun mem =>
      (List.mem_cons.mp mem).resolve_left nofun
    refine { kept with
      wakeups := fun token armed found => ?_
      accessed := fun token access held => List.mem_cons_of_mem _ (kept.accessed token access held)
      known := fun record mem unit token same => List.mem_cons_of_mem _ ?_
      owner := fun unit unit' token first second =>
        kept.owner unit unit' token (old first) (old second)
      sent := fun other mem => ?_
      sending := fun other mem => ?_ }
    · rw [SortedMap.lookup_insert] at found
      split_ifs at found with same
      · exact same ▸ ⟨access, held⟩
      · exact kept.wakeups token armed found
    · rcases List.mem_cons.mp mem with rfl | mem
      · cases same
        rw [about.1, about.2.1]
        exact kept.accessed access.token access held
      · exact kept.known record mem unit token same
    · refine Nat.lt_succ_of_le ?_
      rcases mem with mem | ⟨failure, removed, mem⟩ <;> rcases List.mem_cons.mp mem with same | mem
      · cases same
        exact about.2.2.le
      · exact (kept.sent other (.inl mem)).le
      · cases same
      · exact (kept.sent other (.inr ⟨failure, removed, mem⟩)).le
    · rcases List.mem_cons.mp mem with rfl | mem
      · exact List.mem_cons_self
      · exact List.mem_cons_of_mem _ (kept.sending other mem)
  have sent : Goes strict state { state with
      wakeups := state.wakeups.insert access.token wakeup.sent
      sending := notice :: state.sending
      sends := state.sends + 1
      history := .sent notice :: state.history } := by
    refine .of access.reviewUnit [.sent notice] sending ⟨rfl, fun _ _ => rfl, fun _ _ => rfl,
      fun _ _ => rfl, fun _ _ => rfl, fun other apart token has' =>
        SortedMap.lookup_insert.trans (if_neg fun same => ?_)⟩ rfl (fun record mem named same => ?_) ?_
    · obtain ⟨access', held', rfl⟩ := kept.token_iff.mp has'
      rw [← same, held] at held'
      exact apart (congrArg Access.reviewUnit (Option.some.inj held').symm)
    · rw [List.mem_singleton.mp mem] at same
      exact (Option.some.inj same).symm.trans about.1
    · have channel : ({ state with
          wakeups := state.wakeups.insert access.token wakeup.sent
          sending := notice :: state.sending
          sends := state.sends + 1
          history := .sent notice :: state.history } : State).channel access.reviewUnit =
          { state.channel access.reviewUnit with
            wakeup := some wakeup.sent
            history := .sent ⟨state.sends, access.reviewUnit, access.token,
              wakeup.requestedThrough⟩ :: state.history } := by
        have told : (state.token access.reviewUnit).bind
            (state.wakeups.insert access.token wakeup.sent).lookup = some wakeup.sent := by
          rw [show state.token access.reviewUnit = some access.token from has]
          exact SortedMap.lookup_insert_self
        rw [← isNotice]
        exact congrArg (fun wakeup' => ({ state.channel access.reviewUnit with
          wakeup := wakeup'
          history := .sent ⟨state.sends, access.reviewUnit, access.token,
            wakeup.requestedThrough⟩ :: state.history } : Channel)) told
      rw [channel]
      exact .single (.send access.token wakeup state.sends has (isWakeup.trans armed) needs
        (calm access.reviewUnit) fresh)
  have published : Goes strict state _ := sent.trans
    (goes_publish sent.kept (.wakeup access.reviewUnit none))
  rw [← isNotice] at published
  exact published

theorem notify_spec (kept : state.Kept) (calm : state.Calm) :
    Goes strict state (state.notify token port) ∧ (state.notify token port).Calm := by
  unfold notify
  cases held : state.access.lookup token with
  | none => exact ⟨.refl kept, calm⟩
  | some access =>
    obtain rfl := kept.keyed token access held
    dsimp only
    split_ifs with nothing
    · exact ⟨.refl kept, calm⟩
    have waits : state.waitsForAgent access.reviewUnit = true := by simpa using nothing
    have drops : ∀ e, Goes strict state ((state.drop access.reviewUnit access.token).undelivered
          (some access.reviewUnit) e) ∧
        ((state.drop access.reviewUnit access.token).undelivered
          (some access.reviewUnit) e).Calm := by
      refine fun e => ⟨goes_drop kept held waits, fun unit retries => calm unit ?_⟩
      unfold undelivered at retries
      split at retries <;> exact retries
    unfold notifyAgent
    cases resolved port with
    | error e => exact drops e
    | ok agent =>
      cases port.matchesAgent access.token with
      | error e => exact drops e
      | ok same =>
        cases same with
        | false =>
          have loaded : (state.drop access.reviewUnit access.token).books.contains
            access.reviewUnit = true := contains_of_waits waits
          have scheduled : (state.drop access.reviewUnit access.token).schedule access.reviewUnit
            false = _ := schedule_eq (drop_spec kept held).1 loaded
          have goes : Goes strict state _ := goes_mismatch kept held waits
          have still : ((state.drop access.reviewUnit access.token).schedule access.reviewUnit
              false).2.Calm := Calm.schedule calm
          dsimp only
          rw [scheduled] at goes still ⊢
          exact ⟨goes, still⟩
        | true =>
          cases armed : state.wakeups.lookup access.token with
          | none => exact ⟨.refl kept, calm⟩
          | some wakeup =>
            dsimp only
            split_ifs with needs
            · exact ⟨goes_send kept held armed needs calm, calm⟩
            · exact ⟨.refl kept, calm⟩

end State

end ProgressiveReviewer.Wakeups
