import ProgressiveReviewer.Explore.Coherence

/-! Cancelling an answer with every answer after it: the dialogue returns to what it was
before the answer (`review-explore/src/cancel.rs`). -/

namespace ProgressiveReviewer.Explore

open Library

namespace Dialogue

/-- What a dialogue gained after `before`: the answers `mine`, and the turns `new` that
follow one of them. -/
structure Since (before d : Dialogue) (mine : List ReviewerAnswer) (new : List ConversationTurn) :
    Prop where
  answers : d.answers = before.answers ++ mine
  conversation : d.conversation = before.conversation ++ new
  follow : ∀ turn ∈ new, ∃ answer ∈ mine, turn.answer = some answer.id
  retried : ∀ request, d.retry = some request → ∃ answer ∈ mine, request.answer = some answer
  kept : ∀ completion, before.completion = some completion → d.completion = some completion
  completed : ∀ completion, d.completion = some completion →
    before.completion = some completion ∨ ∃ turn ∈ new, turn.revision = none ∧
      turn.update.request = completion.request
  implemented : ∀ delivery, d.implemented delivery = none

namespace Since

variable {before d : Dialogue} {mine : List ReviewerAnswer} {new : List ConversationTurn}

theorem begin {attempt : String} {request : TurnRequest} {answer : ReviewerAnswer}
    (given : request.answer = some answer)
    (unimplemented : ∀ delivery, before.implemented delivery = none) :
    Since before (before.ask attempt request) [answer] [] where
  answers := by simp [Dialogue.ask, given]
  conversation := (List.append_nil _).symm
  follow := fun _ mem => absurd mem List.not_mem_nil
  retried := by
    rintro _ ⟨⟩
    exact ⟨answer, List.mem_singleton.mpr rfl, given⟩
  kept := fun _ held => held
  completed := fun _ completed => .inl completed
  implemented := unimplemented

theorem ask (since : Since before d mine new) {attempt : String} {request : TurnRequest}
    {answer : ReviewerAnswer} (given : request.answer = some answer) :
    Since before (d.ask attempt request) (mine ++ [answer]) new where
  answers := by simp [Dialogue.ask, given, since.answers]
  conversation := since.conversation
  follow := fun turn mem =>
    have ⟨answer, held, same⟩ := since.follow turn mem
    ⟨answer, List.mem_append_left _ held, same⟩
  retried := by
    rintro _ ⟨⟩
    exact ⟨answer, List.mem_append_right _ (List.mem_singleton.mpr rfl), given⟩
  kept := since.kept
  completed := since.completed
  implemented := since.implemented

theorem accept (since : Since before d mine new) {request : TurnRequest} {update : InterviewUpdate}
    (retry : d.retry = some request) :
    Since before (d.accept request update) mine
      (new ++ [⟨request.answer.map (·.id), update, none⟩]) := by
  obtain ⟨answer, held, given⟩ := since.retried request retry
  exact {
    answers := since.answers
    conversation := by simp [Dialogue.accept, since.conversation]
    follow := List.forall_mem_append.mpr ⟨since.follow, fun turn mem => by
      obtain rfl := List.mem_singleton.mp mem
      exact ⟨answer, held, congrArg (·.map (·.id)) given⟩⟩
    retried := fun _ absent => nomatch absent
    kept := fun completion held => by
      have held := since.kept completion held
      rw [Dialogue.accept, Dialogue.completed, held]
      exact if_neg (by simp)
    completed := fun completion completed => by
      rw [Dialogue.accept, Dialogue.completed] at completed
      split_ifs at completed with ends
      · obtain rfl := Option.some.inj completed
        exact .inr ⟨_, List.mem_append_right _ (List.mem_singleton.mpr rfl), rfl, rfl⟩
      · rcases since.completed completion completed with held | ⟨turn, mem, concluded⟩
        · exact .inl held
        · exact .inr ⟨turn, List.mem_append_left _ mem, concluded⟩
    implemented := since.implemented }

theorem revise (since : Since before d mine new) {turn previous : ConversationTurn}
    (last : d.conversation.getLast? = some previous) (follows : turn.answer = previous.answer)
    (some : new ≠ []) : Since before (d.revise turn) mine (new ++ [turn]) := by
  have held : previous ∈ new := by
    rw [since.conversation, List.getLast?_append_of_ne_nil _ some] at last
    exact List.mem_of_getLast? last
  exact { since with
    conversation := by simp [Dialogue.revise, since.conversation]
    follow := List.forall_mem_append.mpr ⟨since.follow, fun _ mem => by
      obtain rfl := List.mem_singleton.mp mem
      exact follows ▸ since.follow previous held⟩
    completed := fun completion completed => by
      rcases since.completed completion completed with held | ⟨turn, mem, concluded⟩
      · exact .inl held
      · exact .inr ⟨turn, List.mem_append_left _ mem, concluded⟩ }

/-- The answers of the dialogue differ from its latest. -/
theorem apart (coherent : d.Coherent) {answer : ReviewerAnswer}
    (since : Since before d (mine ++ [answer]) new) :
    ∀ old ∈ before.answers ++ mine, old.id ≠ answer.id := by
  have nodup := coherent.answers
  rw [since.answers, ← List.append_assoc, List.map_append, List.nodup_append] at nodup
  exact fun old mem same => nodup.2.2 _ (List.mem_map_of_mem mem) _ (List.mem_singleton.mpr rfl) same

/-- Taking the latest answer back pops it with its turns. -/
theorem withdraw (coherent : d.Coherent) (earlier : before.Coherent) {answer : ReviewerAnswer}
    (since : Since before d (mine ++ [answer]) new) :
    Since before (d.withdraw answer.id) mine
      (new.filter fun turn => turn.answer ≠ some answer.id) := by
  have apart := since.apart coherent
  have untouched : ∀ turn ∈ before.conversation, turn.answer ≠ some answer.id :=
    fun turn mem followed => by
      obtain ⟨old, held, same⟩ := earlier.followed turn mem _ followed
      exact apart old (List.mem_append_left _ held) same
  have stays : ∀ other ∈ mine ++ [answer], other.id ≠ answer.id → other ∈ mine :=
    fun other mem differs => (List.mem_append.mp mem).elim id fun last =>
      absurd (congrArg (·.id) (List.mem_singleton.mp last)) differs
  exact {
    answers := by
      rw [Dialogue.withdraw, since.answers, ← List.append_assoc, List.dropLast_concat]
    conversation := by
      rw [Dialogue.withdraw, since.conversation, List.filter_append,
        List.filter_eq_self.mpr (by simpa using untouched)]
    follow := fun turn mem => by
      obtain ⟨mem, kept⟩ := List.mem_filter.mp mem
      obtain ⟨other, held, same⟩ := since.follow turn mem
      exact ⟨other, stays other held fun equal =>
        of_decide_eq_true kept (same.trans (congrArg some equal)), same⟩
    retried := fun request retry => by
      dsimp only [Dialogue.withdraw] at retry
      split_ifs at retry with pending
      obtain ⟨other, held, given⟩ := since.retried request retry
      refine ⟨other, stays other held fun equal => pending ?_, given⟩
      have carries : request.carries answer.id = true := by simp [TurnRequest.carries, given, equal]
      simp [pendingWith, retry, carries]
    kept := fun completion held => by
      obtain ⟨_, turn, mem, first, same, _⟩ := earlier.completed completion held
      have here : turn ∈ d.conversation := since.conversation ▸ List.mem_append_left _ mem
      refine Option.filter_eq_some_iff.mpr ⟨since.kept completion held, ?_⟩
      rw [← same, Bool.not_eq_true', ← Bool.not_eq_true, coherent.forgets_iff here first]
      exact untouched turn mem
    completed := fun completion completed => by
      obtain ⟨held, kept⟩ := Option.filter_eq_some_iff.mp completed
      rcases since.completed completion held with held | ⟨turn, mem, first, same⟩
      · exact .inl held
      · have here : turn ∈ d.conversation := since.conversation ▸ List.mem_append_right _ mem
        refine .inr ⟨turn, List.mem_filter.mpr ⟨mem, decide_eq_true fun followed => ?_⟩, first, same⟩
        rw [← same, (coherent.forgets_iff here first).mpr followed] at kept
        cases kept
    implemented := since.implemented }

/-- Without answers of its own a dialogue is what it was. -/
theorem restored (since : Since before d [] new) (coherent : d.Coherent) (earlier : before.Coherent) :
    d.decided = before.decided ∧ d.answers = before.answers ∧
      d.conversation = before.conversation ∧ d.completion = before.completion := by
  have answers : d.answers = before.answers := by simpa using since.answers
  have none : new = [] := List.eq_nil_iff_forall_not_mem.mpr fun turn mem => by
    obtain ⟨_, held, _⟩ := since.follow turn mem
    cases held
  have conversation : d.conversation = before.conversation := by
    simpa [none] using since.conversation
  refine ⟨?_, answers, conversation, Option.ext fun completion => ?_⟩
  · rw [coherent.decided, earlier.decided, answers, conversation]
  · refine ⟨fun completed => ?_, since.kept completion⟩
    rcases since.completed completion completed with held | ⟨_, mem, _⟩
    · exact held
    · rw [none] at mem; cases mem

end Since

/-- The dialogue went on after `before` with the answer, and has not taken it back. A turn
follows the answer once its request is no longer on its way. -/
def Onward (before d : Dialogue) (answer : ReviewerAnswer) : Prop :=
  ∃ more new, Since before d (answer :: more) new ∧ (d.retry = none → new ≠ [])

end Dialogue

/-- The moves that neither take an answer back nor go beyond the interview. -/
def Event.Continues : Event → Prop
  | .asked request => request.answer.isSome = true
  | .withdrew _ | .implemented => False
  | _ => True

namespace Dialogue.Onward

variable {before d : Dialogue} {answer : ReviewerAnswer}

theorem move (onward : Onward before d answer) (coherent : d.Coherent) {event : Event}
    {after : Dialogue} (moved : Move d event after) (continues : event.Continues) :
    Onward before after answer := by
  obtain ⟨more, new, since, waits⟩ := onward
  cases moved with
  | ask _ _ _ _ _ _ =>
    obtain ⟨next, given⟩ := Option.isSome_iff_exists.mp continues
    exact ⟨more ++ [next], new, since.ask given, fun absent => nomatch absent⟩
  | @resend _ request current previous sent retry same _ _ content unsaved =>
    obtain ⟨entry, held, carried⟩ := coherent.retried current retry
    rw [same, sent] at held
    obtain rfl := Option.some.inj held
    have again : request.answer = current.answer := content.symm.trans carried
    refine ⟨more, new, { since with retried := ?_ }, fun absent => nomatch absent⟩
    rintro _ ⟨⟩
    exact again ▸ since.retried current retry
  | accept outstanding _ _ _ _ =>
    exact ⟨more, _, since.accept (coherent.retry_of_outstanding outstanding), fun _ => by simp⟩
  | revise _ rested last follows _ _ _ _ _ _ _ _ =>
    exact ⟨more, _, since.revise last follows (waits rested), fun _ => by simp⟩
  | drop => exact ⟨more, new, { since with }, waits⟩
  | fail =>
    refine ⟨more, new, { since with retried := fun request retry => ?_ }, fun none =>
      waits (Option.map_eq_none_iff.mp none)⟩
    obtain ⟨previous, held, rfl⟩ := Option.map_eq_some_iff.mp retry
    exact since.retried previous held
  | retry _ => exact ⟨more, new, { since with }, waits⟩
  | withdraw _ _ => exact continues.elim
  | implement _ _ _ => exact continues.elim

end Dialogue.Onward


/-- The operations that answer, submit and revise, and how their requests travel. -/
def Action.Continues : Action → Prop
  | .post request _ _ => request.answer.isSome = true
  | .cancelAnswersFrom _ | .authorize _ _ => False
  | _ => True

instance : DecidablePred Action.Continues
  | .post request _ _ => inferInstanceAs (Decidable (request.answer.isSome = true))
  | .cancelAnswersFrom _ | .authorize .. => .isFalse id
  | .submit .. | .revise .. | .failed .. | .retry | .cancel | .beginDispatch .. |
    .finishDispatch .. | .pin _ | .mark .. => .isTrue trivial

theorem Action.Continues.brings {action : Action} (continues : action.Continues)
    {events : List Event} (brings : action.Brings events) : ∀ event ∈ events, event.Continues := by
  cases brings with
  | nothing => exact fun _ mem => absurd mem List.not_mem_nil
  | @move action event makes =>
    intro event mem
    obtain rfl := List.mem_singleton.mp mem
    cases action <;> cases event <;> first
      | exact makes.elim
      | exact continues.elim
      | trivial
      | exact (show _ = _ from makes) ▸ continues
  | back answers => exact continues.elim

namespace ExploreRound

open Dialogue

variable {start round : ExploreRound} {before : Dialogue} {answer : ReviewerAnswer}

theorem step_onward {action : Action} (coherent : round.dialogue.Coherent)
    (onward : Onward before round.dialogue answer) (fresh : round.Fresh action)
    (continues : action.Continues) : Onward before (round.step action).dialogue answer := by
  obtain ⟨events, brings, path⟩ := step_path fresh
  have continues := continues.brings brings
  clear brings
  generalize (round.step action).dialogue = after at path ⊢
  generalize round.dialogue = d at coherent onward path
  induction path with
  | nil => exact onward
  | cons moved _ ih =>
    exact ih (fun event mem => continues event (List.mem_cons_of_mem _ mem)) (coherent.move moved)
      (onward.move coherent moved (continues _ List.mem_cons_self))

theorem foldl_onward {more : List Action} (coherent : round.dialogue.Coherent)
    (onward : Onward before round.dialogue answer)
    (may : AllAllowed step (fun round action => round.Fresh action ∧ action.Continues) round more) :
    (more.foldl step round).dialogue.Coherent ∧
      Onward before (more.foldl step round).dialogue answer := by
  induction more generalizing round with
  | nil => exact ⟨coherent, onward⟩
  | cons action more ih =>
    obtain ⟨⟨fresh, continues⟩, rest⟩ := may
    exact ih (step_coherent coherent fresh) (step_onward coherent onward fresh continues) rest

/-- A posted answer begins what follows it. -/
theorem post_onward {request : TurnRequest} {ids : FreshIds} {attempt : String}
    (named : attempt ≠ "") (unimplemented : round.implementations.isEmpty = true)
    (posted : (round.step (.post request ids attempt)).exploration.answers =
      round.exploration.answers ++ [answer]) :
    Onward round.dialogue (round.step (.post request ids attempt)).dialogue answer := by
  have answers : (round.step (.post request ids attempt)).dialogue.answers =
      round.dialogue.answers ++ [answer] := posted
  have fresh : round.Fresh (.post request ids attempt) := named
  obtain ⟨events, brings, path⟩ := step_path fresh
  generalize (round.step (.post request ids attempt)).dialogue = after at path answers ⊢
  cases brings with
  | nothing =>
    obtain rfl := path_nil.mp path
    simp at answers
  | move makes =>
    cases path_singleton.mp path with
    | @ask _ made =>
      obtain rfl : made = request := makes
      have given : made.answer = some answer := by
        have more : made.answer.toList = [answer] := List.append_cancel_left answers
        simpa using more
      exact ⟨[], [], .begin given (isEmpty_implementations.mp unimplemented), fun absent =>
        nomatch absent⟩
    | resend => simp [Dialogue.resend] at answers
    | _ => exact makes.elim

/-- Cancelling takes back the answers from the end, until the one asked for. -/
theorem cancelUntil_ok {fuel : Nat} {more : List ReviewerAnswer} {new : List ConversationTurn}
    (coherent : round.dialogue.Coherent) (earlier : before.Coherent)
    (since : Since before round.dialogue (answer :: more) new) (enough : more.length < fuel) :
    ∃ cancelled kept left, cancelUntil answer.id fuel round = .ok (cancelled, kept) ∧
      kept.dialogue.Coherent ∧ Since before kept.dialogue [] left := by
  induction fuel generalizing round more new with
  | zero => exact absurd enough (Nat.not_lt_zero _)
  | succ fuel ih =>
    rcases more.eq_nil_or_concat with rfl | ⟨more, latest, rfl⟩
    · have answers : round.exploration.answers = before.answers ++ [answer] := since.answers
      have last : round.exploration.answers.getLast? = some answer := by simp [answers]
      obtain ⟨cancelled, kept, ran, _, withdrawn⟩ := cancelAnswer_ok last since.implemented
      have since : Since before round.dialogue ([] ++ [answer]) new := since
      refine ⟨[cancelled], kept, _, ?_, withdrawn ▸ coherent.withdraw last,
        withdrawn ▸ since.withdraw coherent earlier⟩
      rw [cancelUntil, last]
      dsimp only
      rw [ran]
      exact if_pos rfl
    · rw [List.concat_eq_append] at since enough
      have answers : round.exploration.answers = before.answers ++ answer :: (more ++ [latest]) :=
        since.answers
      have last : round.exploration.answers.getLast? = some latest := by
        rw [answers, ← List.cons_append, ← List.append_assoc, List.getLast?_concat]
      obtain ⟨cancelled, kept, ran, _, withdrawn⟩ := cancelAnswer_ok last since.implemented
      have since : Since before round.dialogue ((answer :: more) ++ [latest]) new := by
        simpa using since
      have differs : answer.id ≠ latest.id :=
        since.apart coherent answer (List.mem_append_right _ List.mem_cons_self)
      have enough : more.length < fuel := by simpa using enough
      obtain ⟨others, rest, left, ran', coherent', since'⟩ :=
        ih (withdrawn ▸ coherent.withdraw last) (withdrawn ▸ since.withdraw coherent earlier) enough
      refine ⟨cancelled :: others, rest, left, ?_, coherent', since'⟩
      rw [cancelUntil, last]
      dsimp only
      rw [ran]
      refine (if_neg (Ne.symm differs)).trans ?_
      rw [ran']
      rfl

theorem cancelAnswersFrom_restores (fresh : start.IsNew) (run : Reaches step Fresh start round)
    (unimplemented : round.implementations.isEmpty = true) {request : TurnRequest} {ids : FreshIds}
    {attempt : String} (named : attempt ≠ "")
    (posted : (round.step (.post request ids attempt)).exploration.answers =
      round.exploration.answers ++ [answer])
    {more : List Action}
    (may : AllAllowed step (fun round action => round.Fresh action ∧ action.Continues)
      (round.step (.post request ids attempt)) more) :
    round.exploration.toDecided = round.exploration.conversation.foldl
        (Exploration.replayTurn round.exploration.answers) .nothing ∧
      ∃ cancelled restored, (more.foldl step (round.step (.post request ids attempt))).cancelAnswersFrom
          answer.id = .ok (cancelled, restored) ∧
        restored.exploration.toDecided = round.exploration.toDecided ∧
        restored.exploration.answers = round.exploration.answers ∧
        restored.exploration.conversation = round.exploration.conversation ∧
        restored.completion = round.completion := by
  have earlier := coherent_of_reaches fresh run
  refine ⟨earlier.decided, ?_⟩
  have asked : round.Fresh (.post request ids attempt) := named
  obtain ⟨coherent, later, new, since, _⟩ := foldl_onward (step_coherent earlier asked)
    (post_onward named unimplemented posted) may
  generalize more.foldl step (round.step (.post request ids attempt)) = final at coherent since ⊢
  have answers : final.exploration.answers = round.exploration.answers ++ answer :: later :=
    since.answers
  have held : final.exploration.answers.any (·.id = answer.id) = true := by simp [answers]
  have enough : later.length < final.exploration.answers.length := by
    rw [answers, List.length_append, List.length_cons]
    omega
  obtain ⟨cancelled, restored, left, ran, after, nothing⟩ :=
    cancelUntil_ok coherent earlier since enough
  refine ⟨cancelled, restored, ?_, nothing.restored after earlier⟩
  rw [cancelAnswersFrom, ensure, if_pos held]
  exact ran

end ExploreRound

namespace Sample

open ExploreRound (step Fresh)

theorem reaches_waiting : Reaches step Fresh opened waiting :=
  Reaches.start.foldl (by decide)

/-- What comes after the answer. -/
def later : List Action :=
  [submit (asking "reply" "how" []),
    post (request "again" (some (answer "second" (some (question "how")) "reply")) []),
    submit (closing "again")]

theorem waiting_restored : ∃ cancelled restored,
    (later.foldl step (waiting.step reply)).cancelAnswersFrom "first" = .ok (cancelled, restored) ∧
      (later.foldl step (waiting.step reply)).exploration.conversation.length = 3 ∧
      restored.exploration.conversation = waiting.exploration.conversation := by
  have laterMay : AllAllowed step (fun round action => round.Fresh action ∧ action.Continues)
      (waiting.step reply) later := by decide
  have posted : (waiting.step reply).exploration.answers =
      waiting.exploration.answers ++ [answer "first" (some (question "why")) "kickoff"] := by
    decide
  obtain ⟨_, cancelled, restored, ran, _, _, conversation, _⟩ :=
    ExploreRound.cancelAnswersFrom_restores isNew_opened reaches_waiting (by decide)
      (by decide) posted laterMay
  exact ⟨cancelled, restored, ran, by decide, conversation⟩

/-- An implementation of the conclusion is requested, then the reviewer sends a message and
the agent asks. -/
def implementing : List Action :=
  [post (request "kickoff" none []), submit (closing "kickoff"),
    .authorize ⟨"round", "kickoff", "delivery", "Tasks"⟩ "attempt",
    post (request "message" (some (answer "message" none "kickoff")) []),
    submit (asking "message" "why" [topic])]

theorem implementation_keeps_answers : opened.IsNew ∧
    Reaches step Fresh opened (implementing.foldl step opened) ∧
      (implementing.foldl step opened).exploration.waitingTurn.isSome = true ∧
      let asked := post (request "reply" (some (answer "first" (some (question "why")) "message")) [])
      ((implementing.foldl step opened).step asked).exploration.answers =
          (implementing.foldl step opened).exploration.answers ++
            [answer "first" (some (question "why")) "message"] ∧
        ((implementing.foldl step opened).step asked).cancelAnswersFrom "first" =
          .error "Implementation was requested; answers can no longer be cancelled" := by
  exact ⟨isNew_opened, Reaches.start.foldl (by decide), by decide⟩

end Sample

end ProgressiveReviewer.Explore
