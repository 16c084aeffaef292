import ProgressiveReviewer.Explore.Coherence

/-! What the agent is told of cancelled answers: each of them once
(`review-explore/src/cancel.rs`, `durable.rs`). -/

namespace ProgressiveReviewer.Explore

open Library

/-- The cancelled answers that a move tells the agent. -/
def Event.tells : Event → List String
  | .took request _ => request.cancelled
  | _ => []

/-- The answers that a move takes back. -/
def Event.withdraws : Event → List String
  | .withdrew answer => [answer]
  | _ => []

namespace Dialogue

/-- Every answer taken back was told, or waits to be. -/
structure Telling (d : Dialogue) (told withdrawn : List String) : Prop where
  perm : withdrawn.Perm (told ++ (d.named ++ d.cancelled))
  nodup : withdrawn.Nodup
  apart : ∀ answer ∈ d.answers, answer.id ∉ withdrawn

/-- The request that is sent again names the answers it named, and a new answer is none of
those taken back. -/
def MayTell (d : Dialogue) (withdrawn : List String) : Event → Prop
  | .asked request => ∀ answer, request.answer = some answer → answer.id ∉ withdrawn
  | .resent request => request.cancelled = d.named
  | _ => True

variable {d after : Dialogue} {event : Event} {told withdrawn : List String}

/-- Nothing is told while the same answers wait to be. -/
theorem Telling.keeps (telling : d.Telling told withdrawn) (answers : after.answers = d.answers)
    (pending : after.named ++ after.cancelled = d.named ++ d.cancelled) :
    after.Telling told withdrawn :=
  ⟨pending ▸ telling.perm, telling.nodup, answers ▸ telling.apart⟩

theorem Telling.ask (telling : d.Telling told withdrawn) {attempt : String} {request : TurnRequest}
    (names : request.cancelled = d.named ++ d.cancelled)
    (new : ∀ answer, request.answer = some answer → answer.id ∉ withdrawn) :
    (d.ask attempt request).Telling told withdrawn where
  perm := by
    have pending : (d.ask attempt request).named ++ (d.ask attempt request).cancelled =
        d.named ++ d.cancelled := (List.append_nil _).trans names
    exact pending ▸ telling.perm
  nodup := telling.nodup
  apart := List.forall_mem_append.mpr
    ⟨telling.apart, fun answer mem => new answer (Option.mem_toList.mp mem)⟩

theorem Telling.accept (telling : d.Telling told withdrawn) {request : TurnRequest}
    {update : InterviewUpdate} (retry : d.retry = some request) :
    (d.accept request update).Telling (told ++ request.cancelled) withdrawn where
  perm := by
    have names : d.named = request.cancelled := by rw [named, retry]; rfl
    have perm := telling.perm
    rwa [names, ← List.append_assoc] at perm
  nodup := telling.nodup
  apart := telling.apart

theorem Telling.withdraw (telling : d.Telling told withdrawn) (coherent : d.Coherent)
    {answer : ReviewerAnswer} (last : d.answers.getLast? = some answer) :
    (d.withdraw answer.id).Telling told (withdrawn ++ [answer.id]) where
  perm := by
    have pending : (d.withdraw answer.id).named ++ (d.withdraw answer.id).cancelled =
        d.named ++ d.cancelled ++ [answer.id] := by
      cases carried : d.pendingWith answer.id with
      | none => simp [Dialogue.withdraw, named, carried]
      | some request =>
        have retry := (coherent.retry_of_pendingWith carried).1
        simp [Dialogue.withdraw, named, carried, retry]
    rw [pending, ← List.append_assoc]
    exact telling.perm.append_right _
  nodup := by
    have new : answer.id ∉ withdrawn := telling.apart answer (List.mem_of_getLast? last)
    simpa [List.nodup_append, telling.nodup] using fun other mem (same : other = answer.id) =>
      new (same ▸ mem)
  apart := fun other mem => by
    have nodup := coherent.answers
    rw [← List.dropLast_append_getLast? answer last, List.map_append, List.nodup_append] at nodup
    have differs : other.id ≠ answer.id :=
      nodup.2.2 _ (List.mem_map_of_mem mem) _ (List.mem_singleton.mpr rfl)
    have apart := telling.apart other (List.dropLast_subset _ mem)
    simp [apart, differs]

theorem Telling.move (telling : d.Telling told withdrawn) (coherent : d.Coherent)
    (moved : Move d event after) (may : d.MayTell withdrawn event) :
    after.Telling (told ++ event.tells) (withdrawn ++ event.withdraws) := by
  have quiet : after.Telling told withdrawn → after.Telling (told ++ []) (withdrawn ++ []) :=
    fun telling => by simpa only [List.append_nil] using telling
  cases moved with
  | ask _ _ _ names _ _ => exact quiet (telling.ask names may)
  | resend => exact quiet (telling.keeps rfl (congrArg (· ++ d.cancelled) (show _ = d.named from may)))
  | @accept request update outstanding _ _ _ _ =>
    have accepted : (d.accept request update).Telling (told ++ request.cancelled) withdrawn :=
      telling.accept (coherent.retry_of_outstanding outstanding)
    exact (List.append_nil withdrawn).symm ▸ accepted
  | fail =>
    refine quiet (telling.keeps rfl (congrArg (· ++ d.cancelled) ?_))
    cases held : d.retry <;> simp [named, held]
  | withdraw last _ => exact (List.append_nil told).symm ▸ telling.withdraw coherent last
  | revise | drop | retry | implement => exact quiet (telling.keeps rfl rfl)

theorem took {request : TurnRequest} {update : InterviewUpdate}
    (moved : Move d (.took request update) after) :
    d.outstanding = some request ∧ after.conversation ≠ d.conversation := by
  cases moved with
  | accept outstanding => exact ⟨outstanding, by simp [Dialogue.accept]⟩

/-- Answers are taken back from the end. -/
theorem popped {answers : List String} (path : Path Move d (answers.map .withdrew) after) :
    ∃ popped, d.answers = after.answers ++ popped ∧ (popped.map (·.id)).reverse = answers := by
  induction answers generalizing d with
  | nil =>
    obtain rfl := path_nil.mp path
    exact ⟨[], (List.append_nil _).symm, rfl⟩
  | cons latest answers ih =>
    cases path with
    | cons moved path =>
      cases moved with
      | @withdraw answer last _ =>
        obtain ⟨popped, same, rfl⟩ := ih path
        refine ⟨popped ++ [answer], ?_, by simp⟩
        rw [← List.append_assoc, ← same]
        exact (List.dropLast_append_getLast? answer last).symm

theorem Telling.back (telling : d.Telling told withdrawn) (coherent : d.Coherent)
    {answers : List String} (path : Path Move d (answers.map .withdrew) after) :
    after.Telling told (withdrawn ++ answers) := by
  induction answers generalizing d withdrawn with
  | nil =>
    obtain rfl := path_nil.mp path
    simpa using telling
  | cons latest answers ih =>
    cases path with
    | cons moved path =>
      have next := telling.move coherent moved trivial
      have rest := ih ((List.append_nil told) ▸ next) (coherent.move moved) path
      rwa [List.append_assoc] at rest

end Dialogue

namespace ExploreRound

variable (round : ExploreRound)

/-- The cancelled answers that the request of an accepted turn named. -/
def tells (action : Action) : List String :=
  match action with
  | .submit _ _ _ _ =>
    if (round.step action).exploration.conversation = round.exploration.conversation then []
    else (round.exploration.outstanding.map (·.cancelled)).getD []
  | _ => []

/-- The answers that an operation took back, the latest first. -/
def withdraws (action : Action) : List String :=
  match action with
  | .cancelAnswersFrom _ =>
    let kept := (round.step action).exploration.answers.length
    ((round.exploration.answers.drop kept).map (·.id)).reverse
  | _ => []

variable {round}

theorem tells_of_move {action : Action} {event : Event} (makes : action.Makes event)
    (moved : Move round.dialogue event (round.step action).dialogue) :
    round.tells action = event.tells := by
  cases action with
  | submit world now diverged update =>
    cases event with
    | took request accepted =>
      obtain ⟨outstanding, differs⟩ := Dialogue.took moved
      have outstanding : round.exploration.outstanding = some request := outstanding
      refine (if_neg differs).trans ?_
      rw [outstanding]
      rfl
    | _ => exact makes.elim
  | _ => cases event <;> first | exact makes.elim | rfl

theorem withdraws_of_path {id : String} {answers : List String}
    (path : Path Move round.dialogue (answers.map .withdrew)
      (round.step (.cancelAnswersFrom id)).dialogue) :
    round.withdraws (.cancelAnswersFrom id) = answers := by
  obtain ⟨popped, same, rfl⟩ := Dialogue.popped path
  have same : round.exploration.answers =
      (round.step (.cancelAnswersFrom id)).exploration.answers ++ popped := same
  rw [withdraws]
  conv_lhs => rw [same]
  rw [List.drop_left]

theorem withdraws_of_move {action : Action} {event : Event} (makes : action.Makes event)
    (moved : Move round.dialogue event (round.step action).dialogue) :
    round.withdraws action = event.withdraws := by
  cases event with
  | withdrew answer =>
    cases action with
    | cancelAnswersFrom id => exact withdraws_of_path (Path.single moved)
    | _ => exact makes.elim
  | _ => cases action <;> first | exact makes.elim | rfl

theorem step_telling {action : Action} {told withdrawn : List String}
    (telling : round.dialogue.Telling told withdrawn) (coherent : round.dialogue.Coherent)
    (fresh : round.Fresh action)
    (may : ∀ event after, action.Makes event → Move round.dialogue event after →
      round.dialogue.MayTell withdrawn event) :
    (round.step action).dialogue.Telling (told ++ round.tells action)
      (withdrawn ++ round.withdraws action) := by
  obtain ⟨events, brings, path⟩ := step_path fresh
  cases brings with
  | nothing =>
    have same := path_nil.mp path
    have tells : round.tells action = [] := by
      cases action <;> first | rfl | exact if_pos (congrArg Dialogue.conversation same)
    have withdraws : round.withdraws action = [] := by
      have answers : (round.step action).exploration.answers = round.exploration.answers :=
        congrArg Dialogue.answers same
      cases action <;> first | rfl | simp [ExploreRound.withdraws, answers]
    rw [tells, withdraws, List.append_nil, List.append_nil, same]
    exact telling
  | move makes =>
    have moved := path_singleton.mp path
    rw [tells_of_move makes moved, withdraws_of_move makes moved]
    exact telling.move coherent moved (may _ _ makes moved)
  | back answers =>
    rw [withdraws_of_path path]
    exact (List.append_nil told).symm ▸ telling.back coherent path

end ExploreRound

/-- A round with what its agent was told of cancelled answers. -/
structure Tellings where
  round : ExploreRound
  /-- What the requests of accepted turns named. -/
  told : List String
  withdrawn : List String

namespace Tellings

def new (round : ExploreRound) : Tellings := ⟨round, [], []⟩

def step (log : Tellings) (action : Action) : Tellings where
  round := log.round.step action
  told := log.told ++ log.round.tells action
  withdrawn := log.withdrawn ++ log.round.withdraws action

/-- A request that is posted again names the cancelled answers it named, and no new answer
has the identity of a cancelled one. -/
def May (log : Tellings) (action : Action) : Prop :=
  log.round.Fresh action ∧ match action with
    | .post request _ _ =>
      if log.round.turns.contains request.request
      then ∀ current ∈ log.round.exploration.retry, request.cancelled = current.cancelled
      else ∀ answer ∈ request.answer, answer.id ∉ log.withdrawn
    | _ => True

instance (log : Tellings) : ∀ action, Decidable (log.May action)
  | .post request ids attempt => inferInstanceAs (Decidable (
      log.round.Fresh (.post request ids attempt) ∧ if log.round.turns.contains request.request
        then ∀ current ∈ log.round.exploration.retry, request.cancelled = current.cancelled
        else ∀ answer ∈ request.answer, answer.id ∉ log.withdrawn))
  | .submit .. | .revise .. | .cancelAnswersFrom _ | .failed .. | .retry | .cancel |
    .authorize .. | .beginDispatch .. | .finishDispatch .. | .pin _ | .mark .. =>
    inferInstanceAs (Decidable (log.round.Fresh _ ∧ True))

variable {start : ExploreRound} {log : Tellings} {action : Action}

theorem May.tells (may : log.May action) {event : Event} {after : Dialogue}
    (makes : action.Makes event) (moved : Move log.round.dialogue event after) :
    log.round.dialogue.MayTell log.withdrawn event := by
  obtain ⟨_, names⟩ := may
  cases moved with
  | @ask _ request _ unsent _ _ _ _ =>
    cases action with
    | post posted ids attempt =>
      obtain rfl : request = posted := makes
      have new : ¬log.round.turns.contains request.request = true := by
        simpa [ExploreRound.dialogue, ← SortedMap.lookup_isSome] using unsent
      exact (if_neg new).mp names
    | _ => exact makes.elim
  | @resend _ request current previous sent retry _ _ _ _ _ =>
    cases action with
    | post posted ids attempt =>
      obtain rfl : request = posted := makes
      have held : log.round.turns.contains request.request = true := by
        obtain ⟨record, found, _⟩ := Option.map_eq_some_iff.mp sent
        exact SortedMap.contains_iff.mpr ⟨record, found⟩
      have named : log.round.dialogue.named = current.cancelled := by
        rw [Dialogue.named, retry]; rfl
      exact ((if_pos held).mp names current retry).trans named.symm
    | _ => exact makes.elim
  | _ => trivial

theorem telling_of_reaches (fresh : start.IsNew) (run : Reaches step May (new start) log) :
    log.round.dialogue.Coherent ∧ log.round.dialogue.Telling log.told log.withdrawn := by
  induction run with
  | start =>
    refine ⟨fresh.coherent, ?_⟩
    obtain ⟨_, _, _, _, _, _, rfl⟩ := fresh
    exact ⟨.refl _, List.nodup_nil, fun _ mem => absurd mem List.not_mem_nil⟩
  | step action _ may ih =>
    exact ⟨ExploreRound.step_coherent ih.1 may.1,
      ExploreRound.step_telling ih.2 ih.1 may.1 fun _ _ makes moved => may.tells makes moved⟩

theorem told_once (fresh : start.IsNew) (run : Reaches step May (new start) log) :
    let waiting := ((log.round.exploration.retry.map (·.cancelled)).getD []) ++
      log.round.exploration.cancelled
    (log.told ++ waiting).Nodup ∧
      (∀ id, id ∈ log.withdrawn ↔ id ∈ log.told ∨ id ∈ waiting) ∧
      ∀ request, log.round.exploration.outstanding = some request →
        log.round.exploration.retry = some request := by
  obtain ⟨coherent, telling⟩ := telling_of_reaches fresh run
  exact ⟨telling.perm.nodup telling.nodup, fun _ => telling.perm.mem_iff.trans List.mem_append,
    fun _ outstanding => coherent.retry_of_outstanding outstanding⟩

end Tellings

namespace Sample

open Tellings

/-- The first answer is cancelled, and the request with the next one names it. -/
def again (cancelled : List String) : Action :=
  post (request "again" (some (answer "second" (some (question "why")) "kickoff")) cancelled)

/-- That request fails. -/
def failing : List Action :=
  [post (request "kickoff" none []), submit (first "why" [topic]), reply,
    .cancelAnswersFrom "first", again ["first"], .failed "again" "Error"]

/-- The request is sent again as it was, and the agent takes its turn. -/
theorem first_told_once :
    let log := (failing ++ [again ["first"], submit (closing "again")]).foldl Tellings.step (new opened)
    log.withdrawn = ["first"] ∧ log.told = ["first"] ∧ (log.told ++
      (((log.round.exploration.retry.map (·.cancelled)).getD []) ++
        log.round.exploration.cancelled)).Nodup := by
  intro log
  have may : AllAllowed Tellings.step May (new opened)
      (failing ++ [again ["first"], submit (closing "again")]) := by decide
  exact ⟨by decide, by decide, (told_once isNew_opened (.foldl .start may)).1⟩

/-- The request is sent again without the answer it named, and nothing names that answer. -/
theorem first_untold :
    let log := (failing ++ [again []]).foldl Tellings.step (new opened)
    Reaches ExploreRound.step ExploreRound.Fresh opened log.round ∧
      log.withdrawn = ["first"] ∧ log.told = [] ∧ log.round.exploration.cancelled = [] ∧
        log.round.exploration.outstanding.map (·.cancelled) = some [] ∧
        log.round.exploration.retry.map (·.cancelled) = some [] := by
  intro log
  have may : AllAllowed ExploreRound.step ExploreRound.Fresh opened (failing ++ [again []]) := by
    decide
  exact ⟨Reaches.start.foldl may, by decide⟩

end Sample

end ProgressiveReviewer.Explore
