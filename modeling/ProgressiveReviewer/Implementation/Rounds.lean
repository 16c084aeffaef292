import ProgressiveReviewer.Explore.Handoffs
import ProgressiveReviewer.Implementation.Session

/-! What the changes of a saved round do to its implementation requests: which one of a
conclusion is the latest, and what an admission, a begun attempt and an outcome save. -/

namespace ProgressiveReviewer.Implementation

open Library Explore

variable {round changed : ExploreRound} {request : ImplementationRequest}
  {record : ImplementationDelivery} {conclusion delivery attempt : String}

/-- The requests of a saved round are saved under their own names, in the order of their
authorizations. -/
structure Ordered (round : ExploreRound) : Prop where
  named : ∀ delivery record, round.implementations.lookup delivery = some record →
    record.request.delivery = delivery
  bounded : ∀ delivery record, round.implementations.lookup delivery = some record →
    record.authorizedAt ≤ round.revision
  apart : ∀ delivery record other later, round.implementations.lookup delivery = some record →
    round.implementations.lookup other = some later → record.authorizedAt = later.authorizedAt →
      delivery = other

/-- A request of a conclusion that none of the others was authorized after. -/
structure Latest (round : ExploreRound) (record : ImplementationDelivery) : Prop where
  saved : round.implementations.lookup record.request.delivery = some record
  latest : ∀ delivery other, round.implementations.lookup delivery = some other →
    other.request.conclusion = record.request.conclusion → other.authorizedAt ≤ record.authorizedAt

theorem mem_implementationsOf : record ∈ round.implementationsOf conclusion ↔
    (∃ delivery, round.implementations.lookup delivery = some record) ∧
      record.request.conclusion = conclusion := by
  simp only [ExploreRound.implementationsOf, List.mem_filter, SortedMap.mem_values, decide_eq_true_eq]

theorem latestImplementation_eq_some (ordered : Ordered round) :
    round.latestImplementation conclusion = some record ↔
      Latest round record ∧ record.request.conclusion = conclusion := by
  have kept := isLatest_lastMax (·.authorizedAt) (round.implementationsOf conclusion)
  constructor
  · intro found
    obtain ⟨⟨delivery, saved⟩, same⟩ := mem_implementationsOf.mp (kept.mem record found)
    refine ⟨⟨ordered.named delivery record saved ▸ saved, fun delivery other held of => ?_⟩, same⟩
    obtain ⟨last, found', bound⟩ :=
      kept.latest other (mem_implementationsOf.mpr ⟨⟨delivery, held⟩, of.trans same⟩)
    cases found'.symm.trans found
    exact bound
  · rintro ⟨latest, rfl⟩
    have apart : Set.InjOn (·.authorizedAt)
        { other | other ∈ round.implementationsOf record.request.conclusion } := fun one mem two mem' same => by
      obtain ⟨⟨delivery, saved⟩, _⟩ := mem_implementationsOf.mp mem
      obtain ⟨⟨other, saved'⟩, _⟩ := mem_implementationsOf.mp mem'
      cases ordered.apart delivery one other two saved saved' same
      exact Option.some.inj (saved.symm.trans saved')
    have found : IsLatest (·.authorizedAt)
        { other | other ∈ round.implementationsOf record.request.conclusion } (some record) := by
      refine ⟨fun value same => ?_, fun value mem => ⟨record, rfl, ?_⟩⟩
      · exact Option.some.inj same ▸ mem_implementationsOf.mpr ⟨⟨_, latest.saved⟩, rfl⟩
      · obtain ⟨⟨delivery, saved⟩, of⟩ := mem_implementationsOf.mp mem
        exact latest.latest delivery value saved of
    exact kept.unique apart found

theorem Latest.unique (ordered : Ordered round) {other : ImplementationDelivery}
    (one : Latest round record) (two : Latest round other)
    (same : record.request.conclusion = other.request.conclusion) : record = other :=
  Option.some.inj (((latestImplementation_eq_some ordered).mpr ⟨one, same⟩).symm.trans
    ((latestImplementation_eq_some ordered).mpr ⟨two, rfl⟩))

/-- Ordered, and a request the agent received is the latest of its conclusion. -/
structure Sound (round : ExploreRound) : Prop extends Ordered round where
  delivered : ∀ delivery record, round.implementations.lookup delivery = some record →
    record.state = .delivered → Latest round record

theorem sound_of_none (none : round.implementations = .empty) : Sound round where
  named := by simp [none]
  bounded := by simp [none]
  apart := by simp [none]
  delivered := by simp [none]

/-! ## Changes that concern no request -/

/-- The requests stay as they are. -/
structure Kept (round changed : ExploreRound) : Prop where
  implementations : changed.implementations = round.implementations
  revision : round.revision ≤ changed.revision

namespace Kept

theorem refl : Kept round round := ⟨rfl, le_rfl⟩

theorem trans {last : ExploreRound} (first : Kept round changed) (second : Kept changed last) :
    Kept round last :=
  ⟨second.implementations.trans first.implementations, first.revision.trans second.revision⟩

variable (kept : Kept round changed)
include kept

theorem latest (latest : Latest round record) : Latest changed record :=
  ⟨kept.implementations ▸ latest.saved, kept.implementations ▸ latest.latest⟩

theorem sound (sound : Sound round) : Sound changed where
  named := kept.implementations ▸ sound.named
  bounded delivery record saved :=
    (sound.bounded delivery record (kept.implementations ▸ saved)).trans kept.revision
  apart := kept.implementations ▸ sound.apart
  delivered delivery record saved received :=
    kept.latest (sound.delivered delivery record (kept.implementations ▸ saved) received)

end Kept

/-! ## The state of one request -/

/-- One attempt goes from a state to another. -/
structure Restated (round changed : ExploreRound) (delivery attempt : String)
    (before after : DispatchState) : Prop where
  others : ∀ other, other ≠ delivery →
    changed.implementations.lookup other = round.implementations.lookup other
  record : ∃ record sent, round.implementations.lookup delivery = some record ∧
    record.attempt = attempt ∧ record.state = before ∧
    changed.implementations.lookup delivery =
      some { record with state := after, sentAtMs := sent }
  revision : round.revision ≤ changed.revision

namespace Restated

variable {before after : DispatchState} (restated : Restated round changed delivery attempt before after)
include restated

theorem revised {revision : Nat} (grown : changed.revision ≤ revision) :
    Restated round { changed with revision := revision } delivery attempt before after :=
  ⟨restated.others, restated.record, restated.revision.trans grown⟩

theorem lookup {other : String} {later : ImplementationDelivery}
    (saved : changed.implementations.lookup other = some later) :
    ∃ record, round.implementations.lookup other = some record ∧ later.request = record.request ∧
      later.authorizedAt = record.authorizedAt ∧ later.attempt = record.attempt ∧
      (other ≠ delivery → later = record) := by
  by_cases same : other = delivery
  · obtain ⟨record, sent, held, _, _, saved'⟩ := restated.record
    rw [same, saved'] at saved
    cases saved
    exact ⟨record, same ▸ held, rfl, rfl, rfl, fun apart => absurd same apart⟩
  · exact ⟨later, restated.others other same ▸ saved, rfl, rfl, rfl, fun _ => rfl⟩

theorem latest_other (latest : Latest round record) (apart : record.request.delivery ≠ delivery) :
    Latest changed record := by
  refine ⟨(restated.others _ apart).trans latest.saved, fun other later saved of => ?_⟩
  obtain ⟨earlier, held, request, at_, _⟩ := restated.lookup saved
  exact at_ ▸ latest.latest other earlier held (request ▸ of)

theorem latest_self {sent : Option Nat} (latest : Latest round record)
    (same : record.request.delivery = delivery)
    (saved : changed.implementations.lookup delivery =
      some { record with state := after, sentAtMs := sent }) :
    Latest changed { record with state := after, sentAtMs := sent } := by
  refine ⟨same ▸ saved, fun other later held of => ?_⟩
  obtain ⟨earlier, held, request, at_, _⟩ := restated.lookup held
  exact at_ ▸ latest.latest other earlier held (request ▸ of)

theorem sound (sound : Sound round) (received : after = .delivered → ∀ record,
      round.implementations.lookup delivery = some record → Latest round record) :
    Sound changed where
  named other later saved := by
    obtain ⟨record, held, request, _⟩ := restated.lookup saved
    exact request ▸ sound.named other record held
  bounded other later saved := by
    obtain ⟨record, held, _, at_, _⟩ := restated.lookup saved
    exact at_ ▸ (sound.bounded other record held).trans restated.revision
  apart one first two second saved saved' same := by
    obtain ⟨record, held, _, at_, _⟩ := restated.lookup saved
    obtain ⟨record', held', _, at', _⟩ := restated.lookup saved'
    exact sound.apart one record two record' held held' (at_.symm.trans (same.trans at'))
  delivered other later saved state := by
    by_cases same : other = delivery
    · obtain ⟨record, sent, held, _, _, saved'⟩ := restated.record
      cases (same ▸ saved).symm.trans saved'
      exact restated.latest_self (received state record held) (sound.named delivery record held) saved'
    · obtain ⟨record, held, _, _, _, unchanged⟩ := restated.lookup saved
      obtain rfl := unchanged same
      exact restated.latest_other (sound.delivered other later held state)
        (sound.named other later held ▸ same)

end Restated

/-! ## What each change does -/

theorem save_eq {change : ExploreRound → Except String ExploreRound} {saving : Saving}
    {result : Except String Unit} {after : ExploreRound}
    (saved : save change round saving = (result, after)) :
    (after = round ∧ ∃ error, result = .error error) ∨
      ∃ changed revision, change round = .ok changed ∧
        after = { changed with revision := revision } ∧ changed.revision ≤ revision ∧
        (changed ≠ round → revision = changed.revision + 1) := by
  have updated : ∀ after, updateRound change round = .ok after → ∃ changed revision,
      change round = .ok changed ∧ after = { changed with revision := revision } ∧
        changed.revision ≤ revision ∧ (changed ≠ round → revision = changed.revision + 1) := by
    intro after updated
    obtain ⟨changed, ran, same⟩ := except_bind_eq_ok.mp updated
    split_ifs at same with unchanged
    · cases same
      exact ⟨changed, changed.revision, ran, unchanged.symm, le_rfl, fun apart => absurd unchanged apart⟩
    · obtain ⟨_, next⟩ := ensure_bind_eq_ok.mp same
      cases next
      exact ⟨changed, _, ran, rfl, Nat.le_succ _, fun _ => rfl⟩
  cases saving with
  | failed error =>
    cases saved
    exact .inl ⟨rfl, error, rfl⟩
  | written =>
    simp only [save] at saved
    split at saved
    · next ran =>
      cases saved
      exact .inr (updated _ ran)
    · next error _ =>
      cases saved
      exact .inl ⟨rfl, error, rfl⟩
  | unsure error =>
    simp only [save] at saved
    split at saved
    · next ran =>
      cases saved
      exact .inr (updated _ ran)
    · cases saved
      exact .inl ⟨rfl, error, rfl⟩

theorem beginDispatch_restated {agent : Agent} {now : Nat}
    (ran : round.beginDispatch (.implementation delivery attempt) agent now = .ok changed) :
    Restated round changed delivery attempt .queued .attempting := by
  obtain ⟨queued, rfl⟩ := ExploreRound.beginDispatch_eq_ok ran
  obtain ⟨record, saved, named, state⟩ := ExploreRound.dispatchState_implementation.mp queued
  refine ⟨fun other apart => ?_, ⟨record, record.sentAtMs, saved, named, state, ?_⟩, le_rfl⟩
  · exact SortedMap.lookup_modify.trans (if_neg apart.symm)
  · refine SortedMap.lookup_modify.trans ((if_pos rfl).trans ?_)
    rw [saved]
    rfl

theorem finishDispatch_live {began : Bool} (state : DispatchState) (now : Nat)
    (live : round.dispatchState (.implementation delivery attempt) =
      some (if began then .attempting else .queued)) :
    Restated round (round.finishDispatch ⟨.implementation delivery attempt, began, state⟩ now)
      delivery attempt (if began then .attempting else .queued) state := by
  obtain ⟨record, saved, named, was⟩ := ExploreRound.dispatchState_implementation.mp live
  have finished : round.finishDispatch ⟨.implementation delivery attempt, began, state⟩ now =
      (round.setDispatchState state (.implementation delivery attempt)).delivered
        ⟨.implementation delivery attempt, began, state⟩ now := by
    simp only [ExploreRound.finishDispatch, live]
    cases began <;> rfl
  rw [finished]
  have set : ∀ other, (round.setDispatchState state (.implementation delivery attempt)
      ).implementations.lookup other = if delivery = other then
        some { record with state := state } else round.implementations.lookup other := fun other => by
    refine SortedMap.lookup_modify.trans ?_
    rw [saved]
    rfl
  unfold ExploreRound.delivered
  split
  · next request _ equal _ =>
    cases equal
    refine ⟨fun other apart => ?_, ⟨record, some now, saved, named, was, ?_⟩, le_rfl⟩
    · exact SortedMap.lookup_modify.trans ((if_neg apart.symm).trans
        ((set other).trans (if_neg apart.symm)))
    · refine SortedMap.lookup_modify.trans ((if_pos rfl).trans ?_)
      rw [set, if_pos rfl]
      rfl
  · exact ⟨fun other apart => (set other).trans (if_neg apart.symm),
      ⟨record, record.sentAtMs, saved, named, was, (set delivery).trans (if_pos rfl)⟩, le_rfl⟩

theorem finishDispatch_ended {began : Bool} (state : DispatchState) (now : Nat)
    (ended : round.dispatchState (.implementation delivery attempt) ≠
      some (if began then .attempting else .queued)) :
    round.finishDispatch ⟨.implementation delivery attempt, began, state⟩ now = round := by
  unfold ExploreRound.finishDispatch
  split
  · next before current =>
    have dead : ¬((began = true ∧ before = .attempting) ∨ (¬began = true ∧ before = .queued)) := by
      rintro (⟨rfl, rfl⟩ | ⟨unbegun, rfl⟩)
      · exact ended current
      · cases began
        · exact ended current
        · exact unbegun rfl
    exact if_neg dead
  · rfl

/-- An admitted request is queued under a new attempt: a new one, authorized after all others,
or one that could be sent again, as it was authorized. -/
structure Admits (round changed : ExploreRound) (request : ImplementationRequest)
    (attempt : String) (record : ImplementationDelivery) : Prop where
  asked : record.request = request
  fresh : record.attempt = attempt
  state : record.state = .queued
  lookup : ∀ other, changed.implementations.lookup other =
    if request.delivery = other then some record else round.implementations.lookup other
  revision : round.revision ≤ changed.revision
  authorized : (round.implementations.lookup request.delivery = none ∧
      record.authorizedAt = round.revision + 1 ∧ changed.revision = round.revision + 1) ∨
    ∃ previous, round.implementations.lookup request.delivery = some previous ∧
      previous.request = request ∧ previous.state.mayRetry = true ∧
      record.authorizedAt = previous.authorizedAt

theorem admitted_admits {sending : Bool} {saving : Saving} {result : Except String Unit}
    (saved : save (fun round => admitted round request sending attempt) round saving =
      (result, changed)) :
    (changed = round ∧ ∃ error, result = .error error) ∨
      isHeld round request sending = false ∧ ∃ record, Admits round changed request attempt record := by
  rcases save_eq saved with same | ⟨authorized, revision, ran, rfl, grown, next⟩
  · exact .inl same
  · right
    obtain ⟨free, ran⟩ := ensure_bind_eq_ok.mp ran
    obtain ⟨⟨new, kept⟩, asked, last⟩ := except_bind_eq_ok.mp ran
    cases last
    obtain ⟨_, _, ran⟩ := by simpa only [ExploreRound.authorize, ensure_bind_eq_ok] using asked
    obtain ⟨_, _, ran⟩ := except_bind_eq_ok.mp ran
    refine ⟨free, ?_⟩
    -- The state is set to queued once more.
    have again : ∀ record : ImplementationDelivery, record.state = .queued → ∀ other,
        ((round.implementations.insert request.delivery record).modify request.delivery
            fun delivery => { delivery with state := .queued }).lookup other =
          if request.delivery = other then some record else round.implementations.lookup other := by
      intro record queued other
      rw [SortedMap.lookup_modify, SortedMap.lookup_insert_self]
      split_ifs with same
      · rw [Option.map_some, ← queued]
      · exact SortedMap.lookup_insert.trans (if_neg same)
    split at ran
    · next previous held =>
      obtain ⟨same, retry, ran⟩ := by simpa only [ensure_bind_eq_ok] using ran
      cases ran
      exact ⟨{ previous with attempt := attempt, state := .queued }, same, rfl, rfl,
        again _ rfl, grown, .inr ⟨previous, held, same, retry, rfl⟩⟩
    · next none =>
      cases ran
      let record : ImplementationDelivery := ⟨round.revision + 1, attempt, request, .queued, .none⟩
      have apart := next fun same => by
        have found := again record rfl request.delivery
        have was := congrArg (fun round => round.implementations.lookup request.delivery) same
        rw [if_pos rfl] at found
        cases (found.symm.trans was).trans none
      exact ⟨record, rfl, rfl, rfl, again record rfl, grown, .inl ⟨none, rfl, apart⟩⟩

namespace Admits

variable (admits : Admits round changed request attempt record)
include admits

theorem lookup_other {other : String} (apart : request.delivery ≠ other) :
    changed.implementations.lookup other = round.implementations.lookup other :=
  (admits.lookup other).trans (if_neg apart)

theorem lookup_self : changed.implementations.lookup request.delivery = some record :=
  (admits.lookup request.delivery).trans (if_pos rfl)

/-- The requests of other conclusions stay as they are. -/
theorem of_other {delivery : String} {other : ImplementationDelivery}
    (saved : changed.implementations.lookup delivery = some other) :
    other = record ∧ delivery = request.delivery ∨
      request.delivery ≠ delivery ∧ round.implementations.lookup delivery = some other := by
  by_cases same : request.delivery = delivery
  · exact .inl ⟨Option.some.inj (saved.symm.trans (same ▸ admits.lookup_self)), same.symm⟩
  · exact .inr ⟨same, admits.lookup_other same ▸ saved⟩

theorem latest_other {other : ImplementationDelivery}
    (latest : Latest round other) (apart : other.request.conclusion ≠ request.conclusion) :
    Latest changed other := by
  have unnamed : request.delivery ≠ other.request.delivery := fun same => by
    rcases admits.authorized with ⟨none, _⟩ | ⟨previous, held, equal, _⟩
    · cases none.symm.trans (same ▸ latest.saved)
    · cases held.symm.trans (same ▸ latest.saved)
      exact apart (congrArg (·.conclusion) equal)
  refine ⟨(admits.lookup_other unnamed).trans latest.saved, fun delivery later saved of => ?_⟩
  rcases admits.of_other saved with ⟨rfl, _⟩ | ⟨_, held⟩
  · exact absurd (of.symm.trans (congrArg (·.conclusion) admits.asked)) apart
  · exact latest.latest delivery later held of

/-- The admitted request is the latest of its conclusion, where one that is sent again was. -/
theorem latest (ordered : Ordered round) (again : ∀ previous,
      round.implementations.lookup request.delivery = some previous → previous.state.mayRetry = true →
        Latest round previous) : Latest changed record := by
  refine ⟨admits.asked ▸ admits.lookup_self, fun delivery later saved of => ?_⟩
  rcases admits.of_other saved with ⟨rfl, _⟩ | ⟨_, held⟩
  · exact le_rfl
  · rcases admits.authorized with ⟨_, at_, _⟩ | ⟨previous, held', equal, retry, at_⟩
    · have := ordered.bounded delivery later held
      omega
    · exact at_ ▸ (again previous held' retry).latest delivery later held
        (of.trans (congrArg (·.conclusion) (admits.asked.trans equal.symm)))

theorem sound (sound : Sound round) (undelivered : ∀ latest, Latest round latest →
      latest.request.conclusion = request.conclusion → latest.state ≠ .delivered) :
    Sound changed := by
  have named : ∀ delivery other, changed.implementations.lookup delivery = some other →
      other.request.delivery = delivery := fun delivery other saved => by
    rcases admits.of_other saved with ⟨rfl, rfl⟩ | ⟨_, held⟩
    · exact congrArg (·.delivery) admits.asked
    · exact sound.named delivery other held
  have new : ∀ delivery other, request.delivery ≠ delivery →
      round.implementations.lookup delivery = some other →
        record.authorizedAt ≠ other.authorizedAt := fun delivery other apart held same => by
    rcases admits.authorized with ⟨_, at_, _⟩ | ⟨previous, held', _, _, at_⟩
    · have := sound.bounded delivery other held
      omega
    · exact apart (sound.apart _ previous _ other held' held (at_.symm.trans same))
  refine ⟨⟨named, fun delivery other saved => ?_, fun one first two second saved saved' same => ?_⟩,
    fun delivery other saved state => ?_⟩
  · rcases admits.of_other saved with ⟨rfl, _⟩ | ⟨_, held⟩
    · rcases admits.authorized with ⟨_, at_, revision⟩ | ⟨previous, held, _, _, at_⟩
      · omega
      · exact at_ ▸ (sound.bounded _ previous held).trans admits.revision
    · exact (sound.bounded delivery other held).trans admits.revision
  · rcases admits.of_other saved with ⟨rfl, rfl⟩ | ⟨apart, held⟩ <;>
      rcases admits.of_other saved' with ⟨rfl, rfl⟩ | ⟨apart', held'⟩
    · rfl
    · exact absurd same (new two second apart' held')
    · exact absurd same.symm (new one first apart held)
    · exact sound.apart one first two second held held' same
  · rcases admits.of_other saved with ⟨rfl, _⟩ | ⟨apart, held⟩
    · cases state.symm.trans admits.state
    · have latest := sound.delivered delivery other held state
      exact admits.latest_other latest fun same => undelivered other latest same state

end Admits

/-- Where no other request holds a conclusion, its latest one was not received, and no prompt of
this process sends it. -/
theorem of_not_held {sending : Bool} (ordered : Ordered round)
    (free : isHeld round request sending = false) (latest : Latest round record)
    (same : record.request.conclusion = request.conclusion)
    (apart : record.request.delivery ≠ request.delivery) :
    record.state ≠ .delivered ∧
      (record.state = .queued ∨ record.state = .attempting → sending = false) := by
  have found := (latestImplementation_eq_some ordered).mpr ⟨latest, same⟩
  simp only [isHeld, found, Option.filter, ne_eq, apart, not_false_eq_true, decide_true, if_true,
    Option.any_some] at free
  constructor
  · intro state
    rw [state] at free
    cases free
  · rintro (state | state) <;> exact (by rwa [state] at free)

/-! ## Other changes -/

theorem kept_forget (request : String) : Kept round (round.forget request).2 := ⟨rfl, le_rfl⟩

theorem kept_forgetAll (requests : List String) (round : ExploreRound) :
    Kept round (ExploreRound.forgetAll requests round).2 := by
  induction requests generalizing round with
  | nil => exact .refl
  | cons request requests ih => exact (kept_forget request).trans (ih _)

theorem kept_forgetApplied (answer : ReviewerAnswer) :
    Kept round (round.forgetApplied answer).2 := by
  unfold ExploreRound.forgetApplied
  split
  · split_ifs <;> exact ⟨rfl, le_rfl⟩
  · exact .refl

theorem kept_cancelAnswer {id : String} {result : CancelledAnswer × ExploreRound}
    (ran : round.cancelAnswer id = .ok result) : Kept round result.2 := by
  obtain ⟨_, ran⟩ := ensure_bind_eq_ok.mp ran
  obtain ⟨⟨cancelled, exploration⟩, _, ran⟩ := except_bind_eq_ok.mp ran
  obtain rfl := Except.ok.inj ran
  have kept : Kept round { round with exploration := exploration } := ⟨rfl, le_rfl⟩
  exact (kept.trans (kept_forgetAll _ _)).trans (kept_forgetApplied _)

theorem kept_cancelUntil {id : String} {answers : Nat} {round : ExploreRound}
    {result : List CancelledAnswer × ExploreRound}
    (ran : ExploreRound.cancelUntil id answers round = .ok result) : Kept round result.2 := by
  induction answers generalizing round result with
  | zero =>
    cases ran
    exact .refl
  | succ answers ih =>
    unfold ExploreRound.cancelUntil at ran
    split at ran
    · cases ran
      exact .refl
    · obtain ⟨⟨cancelled, kept⟩, first, ran⟩ := except_bind_eq_ok.mp ran
      dsimp only at ran
      split_ifs at ran
      · cases ran
        exact kept_cancelAnswer first
      · obtain ⟨⟨more, last⟩, rest, ran⟩ := except_bind_eq_ok.mp ran
        cases ran
        have after : Kept kept last := ih rest
        exact (kept_cancelAnswer first).trans after

theorem kept_post {request : TurnRequest} {fresh : FreshIds}
    {result : Bool × ExploreRound} (ran : round.post request fresh attempt = .ok result) :
    Kept round result.2 := by
  obtain ⟨_, ran⟩ := ensure_bind_eq_ok.mp ran
  split at ran
  · obtain ⟨_, _, _, ran⟩ := by simpa only [ExploreRound.resend, ensure_bind_eq_ok] using ran
    cases ran
    exact ⟨rfl, le_rfl⟩
  · obtain ⟨_, _, ran⟩ := except_bind_eq_ok.mp ran
    obtain ⟨_, ran⟩ := ensure_bind_eq_ok.mp ran
    obtain ⟨_, _, ran⟩ := except_bind_eq_ok.mp ran
    cases ran
    exact ⟨rfl, le_rfl⟩

theorem kept_submitted {world : World} {now : Nat} {diverged : List String}
    {update : InterviewUpdate} {result : Bool × ExploreRound}
    (ran : round.submitted world now diverged update = .ok result) : Kept round result.2 := by
  obtain ⟨⟨applied, kept⟩, submitted, ran⟩ := except_bind_eq_ok.mp ran
  obtain ⟨⟨applied', candidate⟩, _, same⟩ := except_bind_eq_ok.mp submitted
  have first : Kept round kept := by
    dsimp only at same
    split_ifs at same <;> cases same <;> exact ⟨rfl, le_rfl⟩
  dsimp only at ran
  split_ifs at ran <;> cases ran
  · refine first.trans ?_
    unfold ExploreRound.complete
    split_ifs <;> exact ⟨rfl, le_rfl⟩
  · exact first

theorem kept_other {action : Explore.Action} (other : IsOther action) :
    Kept round (round.step action) := by
  have ran : ∀ changed, round.run action = .ok changed → Kept round changed := by
    intro changed ran
    cases action with
    | post request fresh attempt =>
      obtain ⟨result, posted, rfl⟩ := except_map_eq_ok.mp ran
      exact kept_post posted
    | submit world now diverged update =>
      obtain ⟨result, submitted, rfl⟩ := except_map_eq_ok.mp ran
      exact kept_submitted submitted
    | revise world revision fresh =>
      obtain ⟨result, _, rfl⟩ := except_map_eq_ok.mp ran
      exact ⟨rfl, le_rfl⟩
    | cancelAnswersFrom id =>
      obtain ⟨result, cancelled, rfl⟩ := except_map_eq_ok.mp ran
      exact kept_cancelUntil (ensure_bind_eq_ok.mp cancelled).2
    | retry =>
      obtain ⟨result, _, rfl⟩ := except_map_eq_ok.mp ran
      exact ⟨rfl, le_rfl⟩
    | authorize => exact other.elim
    | beginDispatch id agent now =>
      cases id with
      | interview request attempt =>
        obtain ⟨_, rfl⟩ := ExploreRound.beginDispatch_eq_ok ran
        exact ⟨rfl, le_rfl⟩
      | implementation => exact other.elim
    | finishDispatch result now =>
      cases ran
      obtain ⟨id, began, state⟩ := result
      cases id with
      | interview request attempt =>
        unfold ExploreRound.finishDispatch
        split
        · split_ifs <;> exact ⟨rfl, le_rfl⟩
        · exact .refl
      | implementation request attempt => exact absurd rfl (other request attempt)
    | failed | cancel | pin | mark =>
      cases ran
      exact ⟨rfl, le_rfl⟩
  unfold ExploreRound.step
  cases change : updateRound (fun saved => saved.run action) round with
  | error failure => exact .refl
  | ok saved =>
    obtain ⟨changed, done, same⟩ := except_bind_eq_ok.mp change
    split_ifs at same with unchanged
    · cases same
      exact .refl
    · obtain ⟨_, next⟩ := ensure_bind_eq_ok.mp same
      cases next
      exact (ran changed done).trans ⟨rfl, Nat.le_succ _⟩

end ProgressiveReviewer.Implementation
