import ProgressiveReviewer.Codex.Follow

/-! What a follow reports is what the daemon says of its session, in order, and every loss of the
daemon once. -/

namespace ProgressiveReviewer.Codex

open Library

namespace SessionEvent

/-- What the daemon says of a session, and not what the client finds of its connection. -/
def isSaid : SessionEvent → Bool
  | refused _ | lost _ => false
  | _ => true

/-- What only the daemon's notices of a session say. -/
def isNoticed : SessionEvent → Bool
  | joined _ | refused _ | lost _ | resumed => false
  | _ => true

end SessionEvent

namespace Wire

theorem notice_event {method : String} {params : Json} {session : String} {event : SessionEvent}
    (read : notice method params = some (.notice session (.event event))) :
    event.isNoticed = true := by
  unfold notice at read
  split at read
  all_goals
    simp only [Option.bind_eq_bind, Option.bind_eq_some_iff, Option.map_eq_some_iff,
      Incoming.notice.injEq, Notice.event.injEq, reduceCtorEq] at read
  · obtain ⟨_, _, _, _, _, _, _, _, _, rfl⟩ := read
    rfl
  · obtain ⟨_, _, _, _, _, _, _, _, _, rfl⟩ := read
    rfl
  · obtain ⟨_, _, _, _, _, _, _, rfl⟩ := read
    rfl
  · obtain ⟨_, _, _, _, _, rfl⟩ := read
    rfl
  · obtain ⟨_, _, _, rfl⟩ := read
    rfl
  · split at read
    · simp at read
    · cases read
  · split at read
    · simp at read
    · cases read

/-- What a notice reports is said of a session: it is no join, no loss and no resume. -/
theorem read_event {frame : Option Json} {session : String} {event : SessionEvent}
    (said : read frame = .notice session (.event event)) : event.isNoticed = true := by
  unfold read at said
  split at said
  · rename_i members
    cases found : message members with
    | none =>
      rw [found] at said
      cases said
    | some incoming =>
      obtain rfl : incoming = .notice session (.event event) := by simpa [found] using said
      simp only [message, Option.bind_eq_bind, Option.bind_eq_some_iff] at found
      obtain ⟨_, _, _, _, _, _, params, _, _, _, _, _, _, _, found⟩ := found
      split at found
      · cases found
      · rename_i method _ _
        cases noticed : notice method (params.getD .null) with
        | none =>
          rw [noticed] at found
          cases found
        | some incoming =>
          rw [noticed] at found
          cases found
          exact notice_event noticed
      · cases found
  · cases said

end Wire

/-- What a frame says of the session, as every client of it hears it. -/
def said (session : String) (frame : Option Json) : Option SessionEvent :=
  match Wire.read frame with
  | .answer id (.ok status) => if id = Wire.joinId then some (.joined status) else none
  | .notice other (.event event) => if other = session then some event else none
  | .notice other .goalSnapshot => if other = session then some .resumed else none
  | _ => none

/-- The frames before the one that ends the connection. -/
def listened (frames : List (Option Json)) : List (Option Json) :=
  frames.takeWhile fun frame => (answer (Wire.read frame)).isNone

/-- What the daemon says of the session in one round, without the snapshot that the client's own
join causes. -/
def Attempt.words (session : String) : Attempt → List SessionEvent
  | .unreachable _ => []
  | .connected frames _ => ((listened frames).filterMap (said session)).erase .resumed

/-- A follow's state after it reported `events`. -/
def Progress.after : Progress → List SessionEvent → Progress
  | progress, [] => progress
  | _, .joined _ :: events => Progress.join.after events
  | progress, .lost _ :: events => Progress.after { progress with lost := true } events
  | progress, _ :: events => progress.after events

/-- What a follow may report: a loss only once until it joins, and a refusal only before it joined
once, at the end. -/
def Progress.Fits : Progress → List SessionEvent → Prop
  | _, [] => True
  | _, .joined _ :: events => Progress.join.Fits events
  | progress, .lost _ :: events =>
    progress.lost = false ∧ Progress.Fits { progress with lost := true } events
  | progress, .refused _ :: events => progress.joined = false ∧ events = []
  | progress, _ :: events => progress.Fits events

theorem Progress.after_append {progress : Progress} {events more : List SessionEvent} :
    (progress.after events).after more = progress.after (events ++ more) := by
  induction events generalizing progress with
  | nil => rfl
  | cons event events ih => cases event <;> exact ih

section Hearing

variable {session error : String} {frame : Option Json} {frames : List (Option Json)}
  {event : SessionEvent} {hearing : Hearing} {progress : Progress}

theorem said_isSaid (heard : said session frame = some event) : event.isSaid = true := by
  unfold said at heard
  split at heard
  · split at heard <;> cases heard
    rfl
  · rename_i other event' read
    split at heard <;> cases heard
    have noticed := Wire.read_event read
    cases event <;> simp_all [SessionEvent.isNoticed, SessionEvent.isSaid]
  · split at heard <;> cases heard
    rfl
  · cases heard

/-- The client hears what the daemon says, but for the snapshot of its own join. -/
theorem hear_eq (hearing : Hearing) (frame : Option Json) :
    hearing.hear (Wire.read frame) =
      if said hearing.session frame = some .resumed ∧ 0 < hearing.ownSnapshots then
        (none, { hearing with ownSnapshots := hearing.ownSnapshots - 1 })
      else (said hearing.session frame, hearing) := by
  unfold Hearing.hear said
  cases read : Wire.read frame with
  | answer id result =>
    cases result with
    | ok status => by_cases join : id = Wire.joinId <;> simp [join]
    | error words => simp
  | notice other notice =>
    cases notice with
    | event event =>
      have noticed := Wire.read_event read
      by_cases same : other = hearing.session
      · have differs : event ≠ .resumed := by
          rintro rfl
          cases noticed
        simp [same, differs]
      · simp [same]
    | goalSnapshot => by_cases same : other = hearing.session <;> simp [same]
  | other => simp

theorem follow_cons {event : Option SessionEvent} {after : Hearing}
    (goes : answer (Wire.read frame) = none) (hears : hearing.hear (Wire.read frame) = (event, after))
    (isSaid : ∀ said ∈ event, said.isSaid = true) :
    follow error (frame :: frames) hearing progress =
      (event.toList ++ (follow error frames after (progress.after event.toList)).1,
        (follow error frames after (progress.after event.toList)).2) := by
  rw [follow]
  simp only [goes, hears]
  cases event with
  | none => rfl
  | some event =>
    have said := isSaid event rfl
    cases event <;> first | rfl | cases said

/-- Over one connection the follow reports what the daemon says of the session. -/
theorem follow_spec (own : hearing.ownSnapshots ≤ 1) :
    (follow error frames hearing progress).1 =
      (if hearing.ownSnapshots = 0 then (listened frames).filterMap (said hearing.session)
        else ((listened frames).filterMap (said hearing.session)).erase .resumed) ∧
    (follow error frames hearing progress).2.1 =
      progress.after (follow error frames hearing progress).1 := by
  induction frames generalizing hearing progress with
  | nil => simp [follow, listened, Progress.after]
  | cons frame frames ih =>
    cases ends : answer (Wire.read frame) with
    | some ended => simp [follow, listened, ends, Progress.after]
    | none =>
      have more : listened (frame :: frames) = frame :: listened frames := by
        simp [listened, ends]
      rw [more, List.filterMap_cons]
      have hears := hear_eq hearing frame
      by_cases snapshot : said hearing.session frame = some .resumed ∧ 0 < hearing.ownSnapshots
      · rw [if_pos snapshot] at hears
        rw [follow_cons ends hears (by simp), snapshot.1, if_neg (by omega)]
        have last : hearing.ownSnapshots - 1 = 0 := by omega
        rw [last]
        obtain ⟨events, after⟩ := @ih ⟨hearing.session, 0⟩ progress (Nat.zero_le _)
        refine ⟨?_, after⟩
        rw [List.erase_cons_head]
        exact events
      · rw [if_neg snapshot] at hears
        rw [follow_cons ends hears fun _ heard => said_isSaid heard]
        obtain ⟨events, after⟩ :=
          @ih hearing (progress.after (said hearing.session frame).toList) own
        refine ⟨?_, after.trans Progress.after_append⟩
        rw [events]
        cases heard : said hearing.session frame with
        | none => rfl
        | some event =>
          by_cases spent : hearing.ownSnapshots = 0
          · simp [spent]
          · have differs : event ≠ .resumed := by
              rintro rfl
              exact snapshot ⟨heard, Nat.pos_of_ne_zero spent⟩
            simp [spent, List.erase_cons_tail, differs]

end Hearing

section Run

variable {session : String} {progress : Progress} {events more : List SessionEvent}

theorem words_isSaid (attempt : Attempt) : ∀ event ∈ attempt.words session, event.isSaid = true := by
  intro event mem
  cases attempt with
  | unreachable error => cases mem
  | connected frames error =>
    obtain ⟨frame, -, heard⟩ := List.mem_filterMap.mp (List.mem_of_mem_erase mem)
    exact said_isSaid heard

theorem attempt_spec (attempt : Attempt) :
    (attempt.run session progress).1 = attempt.words session ∧
      (attempt.run session progress).2.1 = progress.after (attempt.words session) := by
  cases attempt with
  | unreachable error => exact ⟨rfl, rfl⟩
  | connected frames error =>
    obtain ⟨words, after⟩ := @follow_spec error frames (.joining session) progress (Nat.le_refl _)
    exact ⟨words, after.trans (congrArg progress.after words)⟩

theorem fits_said (isSaid : ∀ event ∈ events, event.isSaid = true) :
    progress.Fits (events ++ more) ↔ (progress.after events).Fits more := by
  induction events generalizing progress with
  | nil => rfl
  | cons event events ih =>
    obtain ⟨here, rest⟩ := List.forall_mem_cons.mp isSaid
    cases event <;> first | exact ih rest | cases here

/-- What a round's end adds, and where the follow then stands. -/
theorem ended_spec (progress : Progress) (ended : Ended) :
    (∃ error, progress.ended ended = (.stop (.refused error), progress) ∧ progress.joined = false) ∨
      ∃ error, progress.ended ended =
        (.retry (if progress.lost then none else some (.lost error)), { progress with lost := true }) := by
  cases ended with
  | refused error =>
    by_cases joined : progress.joined = true
    · exact .inr ⟨"the Codex daemon refused to join the session again: " ++ error,
        by simp [Progress.ended, joined, Progress.lose]⟩
    · exact .inl ⟨error, by simp [Progress.ended, joined], by simpa using joined⟩
  | lost error => exact .inr ⟨error, rfl⟩

/-- The loss that a round's end reports, unless it was reported before. -/
def lossOf (progress : Progress) (error : String) : List SessionEvent :=
  (if progress.lost then none else some (SessionEvent.lost error)).toList

theorem lossOf_spec (progress : Progress) (error : String) :
    (progress.Fits (lossOf progress error ++ more) ↔ Progress.Fits { progress with lost := true } more) ∧
      progress.after (lossOf progress error) = { progress with lost := true } ∧
      (lossOf progress error).filter SessionEvent.isSaid = [] := by
  obtain ⟨joined, lost⟩ := progress
  cases lost <;> simp [lossOf, Progress.Fits, Progress.after, SessionEvent.isSaid]

/-- The rounds that a follow goes through, with what it reports of each. -/
theorem run_spec (session : String) (progress : Progress) (rounds : List (Attempt × Bool)) :
    progress.Fits (run session progress rounds) ∧
    (∃ kept, kept <+: rounds ∧
      (run session progress rounds).filter SessionEvent.isSaid =
        kept.flatMap (fun round => round.1.words session) ∧
      (kept = rounds ∨ (∃ error, .refused error ∈ run session progress rounds) ∨
        ∃ round ∈ kept, round.2 = true)) ∧
    ((∀ round ∈ rounds, round.2 = false) → rounds ≠ [] →
      (∃ error, .refused error ∈ run session progress rounds) ∨
        (progress.after (run session progress rounds)).lost = true) := by
  induction rounds generalizing progress with
  | nil => exact ⟨trivial, ⟨[], List.nil_prefix, rfl, .inl rfl⟩, fun _ nonempty => absurd rfl nonempty⟩
  | cons round rounds ih =>
    obtain ⟨attempt, dropped⟩ := round
    obtain ⟨words, after⟩ := @attempt_spec session progress attempt
    have isSaid := @words_isSaid session attempt
    have all : (attempt.words session).filter SessionEvent.isSaid = attempt.words session :=
      List.filter_eq_self.mpr isSaid
    rw [run]
    simp only [words, after]
    rcases ended_spec (progress.after (attempt.words session)) (attempt.run session progress).2.2 with
      ⟨error, ends, fresh⟩ | ⟨error, ends⟩
    · rw [ends]
      refine ⟨(fits_said isSaid).mpr ⟨fresh, rfl⟩, ⟨[(attempt, dropped)], ?_, ?_, ?_⟩, fun _ _ => ?_⟩
      · exact List.cons_prefix_cons.mpr ⟨rfl, List.nil_prefix⟩
      · simp [all, SessionEvent.isSaid]
      · exact .inr (.inl ⟨error, by simp⟩)
      · exact .inl ⟨error, by simp⟩
    · rw [ends]
      cases dropped with
      | true =>
        have fits := (@fits_said progress _ [] isSaid).mpr trivial
        refine ⟨by simpa using fits, ⟨[(attempt, true)], ?_, ?_, ?_⟩, ?_⟩
        · exact List.cons_prefix_cons.mpr ⟨rfl, List.nil_prefix⟩
        · simp [all]
        · exact .inr (.inr ⟨_, List.mem_cons_self, rfl⟩)
        · exact fun none => absurd (none _ List.mem_cons_self) (by simp)
      | false =>
        obtain ⟨fits, ⟨kept, before, filtered, whole⟩, loses⟩ :=
          ih { progress.after (attempt.words session) with lost := true }
        obtain ⟨fitsLoss, afterLoss, unsaid⟩ :=
          @lossOf_spec (run session { progress.after (attempt.words session) with lost := true } rounds)
            (progress.after (attempt.words session)) error
        simp only [Bool.false_eq_true, if_false, List.append_assoc]
        refine ⟨(fits_said isSaid).mpr (fitsLoss.mpr fits), ⟨(attempt, false) :: kept, ?_, ?_, ?_⟩, ?_⟩
        · exact List.cons_prefix_cons.mpr ⟨rfl, before⟩
        · rw [List.filter_append, List.filter_append, all, ← lossOf, unsaid, filtered]
          rfl
        · rcases whole with rfl | ⟨words, mem⟩ | ⟨round, mem, dropped⟩
          · exact .inl rfl
          · exact .inr (.inl ⟨words, by simp [mem]⟩)
          · exact .inr (.inr ⟨round, List.mem_cons_of_mem _ mem, dropped⟩)
        · intro none _
          rw [← Progress.after_append, ← Progress.after_append, ← lossOf, afterLoss]
          by_cases last : rounds = []
          · exact .inr (by rw [last]; rfl)
          · refine (loses (fun round mem => none round (List.mem_cons_of_mem _ mem)) last).imp_left ?_
            rintro ⟨words, mem⟩
            exact ⟨words, by simp [mem]⟩

theorem Progress.Fits.drop {before : List SessionEvent} (fits : progress.Fits (before ++ events)) :
    ∃ later : Progress, later.Fits events := by
  induction before generalizing progress with
  | nil => exact ⟨progress, fits⟩
  | cons event before ih =>
    cases event with
    | refused error =>
      rw [(List.append_eq_nil_iff.mp fits.2).2]
      exact ⟨.start, trivial⟩
    | lost error => exact ih fits.2
    | _ => exact ih fits

/-- A loss after a loss is reported only once the client joined in between. -/
theorem Progress.Fits.joins {error : String} (fits : progress.Fits (events ++ .lost error :: more))
    (lost : progress.lost = true) : ∃ status, .joined status ∈ events := by
  induction events generalizing progress with
  | nil =>
    rw [fits.1] at lost
    cases lost
  | cons event events ih =>
    cases event with
    | joined status => exact ⟨status, List.mem_cons_self⟩
    | refused error => exact absurd fits.2 (by simp)
    | lost error =>
      rw [fits.1] at lost
      cases lost
    | _ =>
      obtain ⟨status, mem⟩ := ih fits lost
      exact ⟨status, List.mem_cons_of_mem _ mem⟩

theorem Progress.Fits.refused {error : String} (fits : progress.Fits (events ++ .refused error :: more)) :
    progress.joined = false ∧ more = [] ∧ ∀ status, .joined status ∉ events := by
  induction events generalizing progress with
  | nil => exact ⟨fits.1, fits.2, by simp⟩
  | cons event events ih =>
    cases event with
    | joined status => exact absurd (ih fits).1 (by simp [Progress.join])
    | refused error => exact absurd fits.2 (by simp)
    | lost error => simpa using ih fits.2
    | _ => simpa using ih fits

/-- A follow that lost the daemon has reported so since it last joined. -/
theorem Progress.lost_after (lost : (progress.after events).lost = true) :
    (progress.lost = true ∧ ∀ status, .joined status ∉ events) ∨
      ∃ before error after, events = before ++ .lost error :: after ∧
        ∀ status, .joined status ∉ after := by
  induction events generalizing progress with
  | nil => exact .inl ⟨lost, by simp⟩
  | cons event events ih =>
    have further : (∃ before error after, events = before ++ .lost error :: after ∧
          ∀ status, .joined status ∉ after) →
        ∃ before error after, event :: events = before ++ .lost error :: after ∧
          ∀ status, .joined status ∉ after := by
      rintro ⟨before, error, after, rfl, apart⟩
      exact ⟨event :: before, error, after, rfl, apart⟩
    cases event with
    | joined status =>
      rcases ih lost with ⟨joins, -⟩ | reported
      · cases joins
      · exact .inr (further reported)
    | lost error =>
      rcases ih lost with ⟨-, apart⟩ | reported
      · exact .inr ⟨[], error, events, rfl, apart⟩
      · exact .inr (further reported)
    | _ => exact (ih lost).imp (by simp) further

end Run

/-- Over any rounds, a follow reports what the daemon says of the session in order, without the
snapshots that its own joins cause; a refusal only at the end, and before it joined once; and the
loss of the daemon after every round that ends, but once until it joins again. -/
theorem run_reports (session : String) (rounds : List (Attempt × Bool)) :
    (∃ kept, kept <+: rounds ∧
      (run session .start rounds).filter SessionEvent.isSaid =
        kept.flatMap (fun round => round.1.words session) ∧
      (kept = rounds ∨ (∃ error, .refused error ∈ run session .start rounds) ∨
        ∃ round ∈ kept, round.2 = true)) ∧
    (∀ before error after, run session .start rounds = before ++ .refused error :: after →
      after = [] ∧ ∀ status, .joined status ∉ before) ∧
    (∀ before error between error' after, run session .start rounds =
        before ++ .lost error :: (between ++ .lost error' :: after) →
      ∃ status, .joined status ∈ between) ∧
    ((∀ round ∈ rounds, round.2 = false) → rounds ≠ [] →
      (∃ error, .refused error ∈ run session .start rounds) ∨
        ∃ before error after, run session .start rounds = before ++ .lost error :: after ∧
          ∀ status, .joined status ∉ after) := by
  obtain ⟨fits, kept, lost⟩ := run_spec session .start rounds
  refine ⟨kept, fun before error after reports => ?_,
    fun before error between error' after reports => ?_, fun none nonempty => ?_⟩
  · exact (Progress.Fits.refused (reports ▸ fits)).2
  · obtain ⟨later, fits⟩ := Progress.Fits.drop (reports ▸ fits)
    exact Progress.Fits.joins fits.2 rfl
  · refine (lost none nonempty).imp_right fun lost => ?_
    rcases Progress.lost_after lost with ⟨started, -⟩ | reported
    · cases started
    · exact reported

end ProgressiveReviewer.Codex
