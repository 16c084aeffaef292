import ProgressiveReviewer.Explore.InPlace
import ProgressiveReviewer.Explore.Coherence
import Mathlib.Tactic.ByContra

/-! What a refused change leaves: the round as it was, but for two writes that the source
makes before its last check. -/

namespace ProgressiveReviewer.Explore

open Library Hunks Marks

/-! The changes in place give what the changes give. -/

namespace Exploration.InPlace

variable (exploration : Exploration)

theorem gives_revise (world : World) (revision : QuestionRevision) (fresh : String) :
    gives (revise world revision fresh) exploration =
      exploration.revise world revision fresh := by
  simp only [revise, Exploration.revise, gives_get_bind, gives_found_bind]
  refine bind_congr fun _ => bind_congr fun _ => ?_
  cases exploration.conversation.find? fun turn => decide (turn.update.next = some revision.question) with
  | some previous =>
    simp only [gives_found_bind, gives_pure]
    rfl
  | none =>
    simp only [gives_found_bind]
    refine bind_congr fun _ => ?_
    cases exploration.conversation.getLast?.bind fun turn =>
        turn.update.next.map fun question => (turn, question) with
    | none => rfl
    | some last =>
      simp only [gives_found_bind, gives_modify_bind, gives_pure]
      rfl

theorem gives_cancelAnswer (id : String) :
    gives (cancelAnswer id) exploration = exploration.cancelAnswer id := by
  simp only [cancelAnswer, Exploration.cancelAnswer, gives_get_bind]
  cases exploration.answers.getLast?.filter fun answer => answer.id = id with
  | none => rfl
  | some answer =>
    simp only [gives_modify_bind]
    split <;> rfl

end Exploration.InPlace

namespace ExploreRound.InPlace

variable (round : ExploreRound)

theorem gives_submit (world : World) (now : Nat) (update : InterviewUpdate) :
    gives (submit world now update) round = round.submit world now update := by
  simp only [submit, ExploreRound.submit, gives_get_bind, gives_found_bind]
  refine bind_congr fun outcome => ?_
  obtain ⟨applied, candidate⟩ := outcome
  cases applied <;> rfl

theorem gives_resend (request : TurnRequest) (previous : InterviewDelivery) (attempt : String) :
    gives (resend request previous attempt) round = round.resend request previous attempt := by
  simp only [resend, ExploreRound.resend, gives_get_bind, gives_found_bind, gives_modify_bind,
    gives_pure]
  rfl

theorem gives_post (request : TurnRequest) (fresh : FreshIds) (attempt : String) :
    gives (post request fresh attempt) round = round.post request fresh attempt := by
  simp only [post, ExploreRound.post, gives_get_bind, gives_found_bind]
  refine bind_congr fun _ => ?_
  cases round.turns.lookup request.request with
  | some previous => exact gives_resend round request _ attempt
  | none =>
    simp only [gives_found_bind]
    refine bind_congr fun _ => bind_congr fun _ => ?_
    simp only [take, gives_modify_bind, gives_get_bind, gives_found_bind, gives_pure]
    rfl

theorem gives_authorize (request : ImplementationRequest) (attempt : String) :
    gives (authorize request attempt) round = round.authorize request attempt := by
  simp only [authorize, ExploreRound.authorize, gives_get_bind, gives_found_bind]
  refine bind_congr fun _ => bind_congr fun _ => bind_congr fun _ => ?_
  cases round.implementations.lookup request.delivery with
  | some previous =>
    simp only [gives_found_bind, gives_modify_bind, gives_pure]
    rfl
  | none => rfl

theorem gives_beginDispatch (id : DispatchId) (agent : Agent) (now : Nat) :
    gives (beginDispatch id agent now) round =
      (round.beginDispatch id agent now).map fun changed => ((), changed) := by
  simp only [beginDispatch, startAttempt, ExploreRound.beginDispatch, gives_get_bind,
    gives_found_bind, gives_modify_bind]
  cases round.validateDispatch id with
  | error e => rfl
  | ok u =>
    unfold bindAgent
    generalize { round with lastAgentSession := ConversationBinding.fromAgent agent } = bound
    cases bound.dispatchState id with
    | none => rfl
    | some state =>
      simp only [gives_found_bind, gives_modify_bind]
      cases ensure (state = .queued) "Delivery already attempted or cancelled" <;> rfl

theorem gives_cancelAnswer (id : String) :
    gives (cancelAnswer id) round = round.cancelAnswer id := by
  simp only [cancelAnswer, ExploreRound.cancelAnswer, gives_get_bind, gives_found_bind]
  refine bind_congr fun _ => ?_
  rw [gives_bind, gives_onPart, Exploration.InPlace.gives_cancelAnswer]
  cases round.exploration.cancelAnswer id <;> rfl

theorem gives_cancelUntil (id : String) (answers : Nat) :
    gives (cancelUntil id answers) round = ExploreRound.cancelUntil id answers round := by
  induction answers generalizing round with
  | zero => rfl
  | succ answers ih =>
    simp only [cancelUntil, ExploreRound.cancelUntil, gives_get_bind]
    cases round.exploration.answers.getLast? with
    | none => rfl
    | some latest =>
      dsimp only
      rw [gives_bind, gives_cancelAnswer]
      refine bind_congr fun outcome => ?_
      obtain ⟨cancelled, kept⟩ := outcome
      dsimp only
      split
      · rfl
      · rw [gives_bind, ih]
        rfl

theorem gives_cancelAnswersFrom (id : String) :
    gives (cancelAnswersFrom id) round = round.cancelAnswersFrom id := by
  simp only [cancelAnswersFrom, ExploreRound.cancelAnswersFrom, gives_get_bind, gives_found_bind]
  exact bind_congr fun _ => gives_cancelUntil round id _

end ExploreRound.InPlace

/-- A change gives what the operation it makes gives. -/
theorem Change.gives_run (change : Change) (round : ExploreRound) :
    (gives change.run round).map Prod.snd = change.result round := by
  have ignored {α : Type} (x : EStateM String ExploreRound α) :
      (gives (do _ ← x; return ()) round).map Prod.snd = (gives x round).map Prod.snd := by
    rw [gives_ignore]
    cases gives x round <;> rfl
  cases change with
  | submit => exact (ignored _).trans (congrArg (Except.map _) (ExploreRound.InPlace.gives_submit ..))
  | post => exact (ignored _).trans (congrArg (Except.map _) (ExploreRound.InPlace.gives_post ..))
  | authorize =>
    exact (ignored _).trans (congrArg (Except.map _) (ExploreRound.InPlace.gives_authorize ..))
  | beginDispatch id agent now =>
    rw [run, ExploreRound.InPlace.gives_beginDispatch, result]
    cases round.beginDispatch id agent now <;> rfl
  | finishDispatch => rfl
  | cancelAnswersFrom =>
    exact (ignored _).trans (congrArg (Except.map _) (ExploreRound.InPlace.gives_cancelAnswersFrom ..))
  | revise world revision fresh =>
    refine (ignored _).trans ?_
    rw [gives_onPart, Exploration.InPlace.gives_revise, result]
    cases round.exploration.revise world revision fresh <;> rfl

/-! Most changes write after their last check. -/

namespace Exploration.InPlace

variable {exploration : Exploration}

theorem untouched_revise (world : World) (revision : QuestionRevision) (fresh : String) :
    Untouched (revise world revision fresh) exploration := by
  refine .get_bind (.found_bind fun _ _ => .found_bind fun _ _ => ?_)
  split
  · exact .found_bind fun _ _ => .pure _
  · refine .found_bind fun _ _ => ?_
    split
    · exact .found (.error _)
    · exact .found_bind fun _ _ => .found_bind fun _ _ => .found_bind fun _ _ => .of_ok rfl

theorem untouched_cancelAnswer (id : String) : Untouched (cancelAnswer id) exploration := by
  refine .get_bind ?_
  split
  · exact .found (.error _)
  · dsimp only
    split <;> exact .of_ok rfl

end Exploration.InPlace

namespace ExploreRound.InPlace

variable {round : ExploreRound}

theorem untouched_submit (world : World) (now : Nat) (update : InterviewUpdate) :
    Untouched (submit world now update) round := by
  refine .get_bind (.found_bind fun ⟨applied, candidate⟩ _ => ?_)
  cases applied <;> exact .of_ok rfl

theorem untouched_resend (request : TurnRequest) (previous : InterviewDelivery) (attempt : String) :
    Untouched (resend request previous attempt) round :=
  .get_bind (.found_bind fun _ _ => .found_bind fun _ _ => .found_bind fun _ _ => .of_ok rfl)

theorem untouched_authorize (request : ImplementationRequest) (attempt : String) :
    Untouched (authorize request attempt) round := by
  refine .get_bind (.found_bind fun _ _ => .found_bind fun _ _ => .found_bind fun _ _ => ?_)
  split
  · exact .found_bind fun _ _ => .found_bind fun _ _ => .of_ok rfl
  · exact .of_ok rfl

theorem untouched_cancelAnswer (id : String) : Untouched (cancelAnswer id) round :=
  .get_bind (.found_bind fun _ _ =>
    .bind_of_ok (.onPart rfl (Exploration.InPlace.untouched_cancelAnswer id)) fun _ _ _ => ⟨_, _, rfl⟩)

/-- What is cancelled first passes the check of every later cancellation. -/
theorem cancelUntil_succeeds (id : String) (answers : Nat)
    (idle : ∀ delivery, round.dialogue.implemented delivery = none) :
    ∃ result, ExploreRound.cancelUntil id answers round = .ok result := by
  induction answers generalizing round with
  | zero => exact ⟨_, rfl⟩
  | succ answers ih =>
    rw [ExploreRound.cancelUntil]
    cases last : round.exploration.answers.getLast? with
    | none => exact ⟨_, rfl⟩
    | some latest =>
      obtain ⟨cancelled, kept, ran, -, moved⟩ := cancelAnswer_ok last idle
      simp only [ran]
      by_cases done : latest.id = id
      · exact ⟨([cancelled], kept), if_pos done⟩
      · obtain ⟨⟨more, after⟩, rest⟩ := @ih kept fun delivery => by
          rw [moved]
          exact idle delivery
        refine ⟨(cancelled :: more, after), (if_neg done).trans ?_⟩
        simp only [rest]
        rfl

theorem untouched_cancelAnswersFrom (id : String) : Untouched (cancelAnswersFrom id) round := by
  refine .get_bind (.found_bind fun _ _ => ?_)
  cases round.exploration.answers.length with
  | zero => exact .pure _
  | succ answers =>
    refine .get_bind ?_
    split
    · exact .pure _
    · next latest last =>
      refine .bind_of_ok (untouched_cancelAnswer _) fun cancelled kept ran => ?_
      have ran : round.cancelAnswer latest.id = .ok (cancelled, kept) :=
        (gives_cancelAnswer round _).symm.trans (gives_eq_ok.mpr ran)
      have idle := isEmpty_implementations.mp (ensure_bind_eq_ok.mp ran).1
      obtain ⟨cancelled', kept', ran', -, moved⟩ := cancelAnswer_ok last idle
      obtain ⟨rfl, rfl⟩ := Prod.mk.inj (Except.ok.inj (ran.symm.trans ran'))
      obtain ⟨⟨more, after⟩, rest⟩ := @cancelUntil_succeeds kept id answers fun delivery => by
        rw [moved]
        exact idle delivery
      have rest : cancelUntil id answers kept = .ok more after :=
        gives_eq_ok.mp ((gives_cancelUntil kept id answers).trans rest)
      split
      · exact ⟨_, _, rfl⟩
      · exact ⟨_, _, bind_ok rest⟩

/-! The two changes that write before their last check. -/

theorem take_succeeds_iff (expected : Option ReviewerAnswer) (request : TurnRequest) (attempt : String) :
    (∃ new kept, take expected request attempt round = .ok new kept) ↔
      ∃ answers, round.admitAnswer expected request = .ok answers := by
  rw [succeeds_iff]
  simp only [take, gives_get_bind, gives_found_bind, gives_modify_bind, gives_pure,
    except_bind_eq_ok]
  exact ⟨fun ⟨_, answers, ran, _⟩ => ⟨answers, ran⟩, fun ⟨answers, ran⟩ => ⟨_, answers, ran, rfl⟩⟩

theorem untouched_take (expected : Option ReviewerAnswer) (request : TurnRequest) (attempt : String) :
    Untouched (take expected request attempt) round :=
  .get_bind (.found_bind fun _ _ => .of_ok rfl)

theorem startAttempt_succeeds_iff (id : DispatchId) (now : Nat) :
    (∃ u kept, startAttempt id now round = .ok u kept) ↔ round.dispatchState id = some .queued := by
  rw [succeeds_iff]
  simp only [startAttempt, gives_get_bind]
  cases round.dispatchState id with
  | none => simp only [gives_throw, reduceCtorEq, exists_false]
  | some state =>
    simp only [gives_found_bind, gives_modify_bind, gives_modify, ensure_bind_eq_ok,
      Option.some.injEq]
    exact ⟨fun ⟨_, queued, _⟩ => queued, fun queued => ⟨_, queued, rfl⟩⟩

theorem untouched_startAttempt (id : DispatchId) (now : Nat) :
    Untouched (startAttempt id now) round := by
  refine .get_bind ?_
  split
  · exact .found (.error _)
  · exact .found_bind fun _ _ => .of_ok rfl

end ExploreRound.InPlace

/-- The identity a recorded answer is given is free. -/
theorem Exploration.record_id {exploration : Exploration} {input : AnswerInput}
    {question : Option Question} {id : String} {answer : ReviewerAnswer} {kept : Exploration}
    (ran : exploration.record input question id = .ok (answer, kept)) (other : String) :
    ∃ kept, exploration.record input question other = .ok ({ answer with id := other }, kept) := by
  unfold record at ran ⊢
  split at ran
  · cases ran
  · next context found =>
    obtain ⟨asked, ran⟩ := ensure_bind_eq_ok.mp ran
    obtain ⟨u, contribution, ran⟩ := except_bind_eq_ok.mp ran
    obtain ⟨option, chose, ran⟩ := except_bind_eq_ok.mp ran
    obtain ⟨pending, picked, ran⟩ := by simpa only [ensure_bind_eq_ok] using ran
    cases ran
    simp only [ensure, if_pos asked, contribution, chose, if_pos pending, if_pos picked]
    exact ⟨_, rfl⟩

namespace ExploreRound

variable (round : ExploreRound)

/-- The answer that the round records for the input behind another one. -/
def Expects (answer expected : ReviewerAnswer) : Prop :=
  ∃ kept, round.exploration.record (inputOf answer) answer.question answer.id = .ok (expected, kept)

/-- A new request that passes every check but the one of its answer, with cancelled answers
to tell: the list is cleared when the answer is refused. -/
structure ForgetsOnRefusal (request : TurnRequest) : Prop where
  home : request.instanceId = round.exploration.instanceId ∧
    request.checkpoint = round.exploration.comparison.checkpoint
  new : round.turns.lookup request.request = none
  idle : round.exploration.outstanding = none
  named : request.cancelled =
    ((round.exploration.retry.map (·.cancelled)).getD []) ++ round.exploration.cancelled
  pending : round.exploration.cancelled ≠ []
  refused : ∃ answer expected, request.answer = some answer ∧ round.Expects answer expected ∧
    (expected = answer → ∃ old ∈ round.exploration.answers, old.id = answer.id)

/-- A delivery that is no longer the latest attempt, or does not wait, of a turn that is
outstanding: the agent it was to go to is bound when it is refused. -/
structure BindsOnRefusal (id : DispatchId) (agent : Agent) : Prop where
  valid : round.validateDispatch id = .ok ()
  late : round.dispatchState id ≠ some .queued
  other : round.lastAgentSession ≠ ConversationBinding.fromAgent agent

/-- The changes that leave another round when they are refused. -/
def LosesOnRefusal : Change → Prop
  | .post request _ _ => round.ForgetsOnRefusal request
  | .beginDispatch id agent _ => round.BindsOnRefusal id agent
  | _ => False

variable {round}

theorem clearCancelled_eq_iff : InPlace.clearCancelled round = round ↔ round.exploration.cancelled = [] := by
  constructor
  · intro same
    rw [← same]
    rfl
  · intro none_
    rw [InPlace.clearCancelled, ← none_]

theorem bindAgent_eq_iff {agent : Agent} : InPlace.bindAgent agent round = round ↔
    round.lastAgentSession = ConversationBinding.fromAgent agent := by
  constructor
  · intro same
    rw [← same]
    rfl
  · intro bound
    rw [InPlace.bindAgent, ← bound]

theorem untouched_beginDispatch_iff (id : DispatchId) (agent : Agent) (now : Nat) :
    Untouched (InPlace.beginDispatch id agent now) round ↔ ¬round.BindsOnRefusal id agent := by
  have run : Untouched (InPlace.beginDispatch id agent now) round ↔ ∀ u, round.validateDispatch id = .ok u →
      Untouched (modify (InPlace.bindAgent agent) >>= fun _ => InPlace.startAttempt id now) round :=
    Untouched.found_bind_iff
  rw [run, untouched_modify_bind_iff (InPlace.untouched_startAttempt id now),
    InPlace.startAttempt_succeeds_iff, bindAgent_eq_iff]
  constructor
  · rintro keeps ⟨valid, late, other⟩
    exact (keeps () valid).elim other late
  · intro never u valid
    by_contra fails
    obtain ⟨other, late⟩ := not_or.mp fails
    exact never ⟨valid, late, other⟩

theorem Expects.unique {answer expected other : ReviewerAnswer} (expects : round.Expects answer expected)
    (expects' : round.Expects answer other) : expected = other := by
  obtain ⟨_, ran⟩ := expects
  obtain ⟨_, ran'⟩ := expects'
  exact (Prod.mk.inj (Except.ok.inj (ran.symm.trans ran'))).1

section Posted

variable {request : TurnRequest} {fresh : FreshIds}

/-- The round takes up a new request whose answer it expects. -/
theorem request_of_expects (idle : round.exploration.outstanding = none)
    (expects : ∀ answer, request.answer = some answer → ∃ expected, round.Expects answer expected) :
    ∃ made, round.exploration.request (request.answer.map inputOf)
      (request.answer.bind (·.question)) fresh = .ok made := by
  unfold Exploration.request
  rw [idle]
  cases given : request.answer with
  | none => exact ⟨_, rfl⟩
  | some answer =>
    obtain ⟨expected, kept, ran⟩ := expects answer given
    obtain ⟨kept', ran'⟩ := Exploration.record_id ran fresh.answer
    simp only [Option.map_some, Option.bind_some, Exploration.recorded, ran']
    exact ⟨_, rfl⟩

/-- The answer of a new request is taken when it is the expected one and its identity is new. -/
theorem admitAnswer_made {validated : TurnRequest} {kept : Exploration}
    (made : round.exploration.request (request.answer.map inputOf)
      (request.answer.bind (·.question)) fresh = .ok (validated, kept)) :
    (∃ answers, round.admitAnswer validated.answer request = .ok answers) ↔
      ∀ answer expected, request.answer = some answer → round.Expects answer expected →
        expected = answer ∧ ∀ old ∈ round.exploration.answers, old.id ≠ answer.id := by
  obtain ⟨_, rest⟩ := ensure_bind_eq_ok.mp made
  obtain ⟨⟨recorded, after⟩, ran, same⟩ := except_bind_eq_ok.mp rest
  obtain ⟨rfl, -⟩ := Prod.mk.inj (Except.ok.inj same)
  cases given : request.answer with
  | none =>
    rw [given] at ran
    obtain ⟨rfl, -⟩ := Prod.mk.inj (Except.ok.inj ran)
    exact iff_of_true ⟨_, rfl⟩ fun _ _ absent => by cases absent
  | some answer =>
    rw [given] at ran
    obtain ⟨⟨found, kept⟩, took, result⟩ := except_map_eq_ok.mp ran
    obtain rfl : some found = recorded := (Prod.mk.inj result).1
    obtain ⟨kept', took'⟩ := Exploration.record_id took answer.id
    have expects : round.Expects answer { found with id := answer.id } := ⟨kept', took'⟩
    simp only [admitAnswer, given, ensure_bind_eq_ok, Option.some.injEq]
    constructor
    · rintro ⟨_, same, unused, -⟩ _ expected rfl expects'
      exact ⟨(expects'.unique expects).trans same, by simpa using unused⟩
    · intro taken
      obtain ⟨same, unused⟩ := taken answer _ rfl expects
      exact ⟨_, same, by simpa using unused, rfl⟩

end Posted

theorem untouched_post_iff (request : TurnRequest) (fresh : FreshIds) (attempt : String) :
    Untouched (InPlace.post request fresh attempt) round ↔ ¬round.ForgetsOnRefusal request := by
  refine Untouched.found_bind_iff.trans ?_
  cases sent : round.turns.lookup request.request with
  | some previous =>
    refine iff_of_true (fun _ _ => InPlace.untouched_resend request previous attempt) fun forgets => ?_
    rw [forgets.new] at sent
    cases sent
  | none =>
    have rest : ∀ validated : TurnRequest,
        Untouched (modify InPlace.clearCancelled >>= fun _ =>
          InPlace.take validated.answer request attempt) round ↔
        round.exploration.cancelled = [] ∨
          ∃ answers, round.admitAnswer validated.answer request = .ok answers := fun validated => by
      rw [untouched_modify_bind_iff (InPlace.untouched_take _ request attempt),
        InPlace.take_succeeds_iff, clearCancelled_eq_iff]
      rfl
    simp only [ensure_eq_ok, Untouched.found_bind_iff]
    constructor
    · rintro keeps ⟨home, -, idle, named, pending, answer, expected, given, expects, refused⟩
      obtain ⟨⟨validated, kept⟩, made⟩ := @request_of_expects round request fresh idle
        fun other given' => by
          obtain rfl := Option.some.inj (given.symm.trans given')
          exact ⟨expected, expects⟩
      obtain ⟨-, names, -⟩ := Exploration.request_eq_ok made
      have taken := ((rest validated).mp (keeps () home _ made () (names.trans named.symm))).resolve_left
        pending
      obtain ⟨same, unused⟩ := (admitAnswer_made made).mp taken answer expected given expects
      obtain ⟨old, mem, used⟩ := refused same
      exact unused old mem used
    · rintro never - home ⟨validated, kept⟩ made - named
      refine (rest validated).mpr (or_iff_not_imp_left.mpr fun pending => ?_)
      obtain ⟨idle, names, -, -⟩ := Exploration.request_eq_ok made
      refine (admitAnswer_made made).mpr fun answer expected given expects => ?_
      by_contra refused
      exact never ⟨home, sent, idle, named.symm.trans names, pending, answer, expected, given, expects,
        fun same => by
          by_contra unused
          exact refused ⟨same, fun old mem used => unused ⟨old, mem, used⟩⟩⟩

/-- A refused change leaves the round as it was, but when it clears the cancelled answers or
binds another agent before its last check refuses it. -/
theorem refused_untouched_iff (change : Change) :
    Untouched change.run round ↔ ¬round.LosesOnRefusal change := by
  cases change with
  | submit world now update =>
    exact iff_of_true (Untouched.ignore_iff.mpr (InPlace.untouched_submit world now update)) id
  | post request fresh attempt =>
    exact Untouched.ignore_iff.trans (untouched_post_iff request fresh attempt)
  | authorize request attempt =>
    exact iff_of_true (Untouched.ignore_iff.mpr (InPlace.untouched_authorize request attempt)) id
  | beginDispatch id agent now => exact untouched_beginDispatch_iff id agent now
  | finishDispatch result now => exact iff_of_true (.of_ok rfl) fun loses => loses
  | cancelAnswersFrom id =>
    exact iff_of_true (Untouched.ignore_iff.mpr (InPlace.untouched_cancelAnswersFrom id)) fun loses => loses
  | revise world revision fresh =>
    exact iff_of_true (Untouched.ignore_iff.mpr (Untouched.onPart rfl
      (Exploration.InPlace.untouched_revise world revision fresh))) id

end ExploreRound

namespace Sample

open ExploreRound (step)

/-- The first answer is cancelled, and an answer to another turn names it as cancelled. -/
def unexpected : TurnRequest :=
  request "again" (some (answer "second" (some (question "why")) "other")) ["first"]

/-- A refused answer leaves the cancelled one untold, and an older attempt of a turn that
starts late, with another agent, is refused and binds it. -/
theorem refused_changes_lose :
    let round := [reply, .cancelAnswersFrom "first"].foldl step waiting
    let asked := opened.step (post (request "kickoff" none []))
    let agent : Agent := ⟨some "agent", some ⟨"source", "agent", "kind", "value"⟩⟩
    (∃ kept, Change.run (.post unexpected ⟨"request", "answer"⟩ "attempt") round =
        .error "Answer content does not match the displayed question" kept ∧
      round.exploration.cancelled = ["first"] ∧ kept.exploration.cancelled = []) ∧
    ∃ kept, Change.run (.beginDispatch (.interview "kickoff" "older") agent 0) asked =
        .error "Delivery attempt superseded" kept ∧
      asked.lastAgentSession = none ∧ kept.lastAgentSession.isSome = true :=
  ⟨⟨_, rfl, by decide⟩, _, rfl, by decide⟩

end Sample

end ProgressiveReviewer.Explore
