import ProgressiveReviewer.Explore.Alike
import ProgressiveReviewer.Explore.Overview
import ProgressiveReviewer.RunAhead.Session

/-! What a fork submits for its choice, and what becomes of it once the reviewer picked that
choice (`review-explore-session/src/run_ahead/calls.rs`, `take.rs`, `answer.rs`). -/

namespace ProgressiveReviewer.RunAhead

open Library Explore Relation

/-- The turn of a fork: the one that would follow the answer with its choice, under the
identities reserved for it. -/
def forkRequest (round : ExploreRound) (question : Question) (choice : Alternative)
    (reserved : ReservedIds) (made : FreshIds) : Except String TurnRequest := do
  let (request, _) ← (round.exploration.request (some ⟨some choice.id, "", none, none, false⟩)
    (some question) made).mapError fun error => s!"no turn for the choice {choice.id}: {error}"
  return reserved.apply request

/-- A request under the identities reserved for its choice, when it answers the question that
waits with a choice whose forks were taken. -/
def withReservedIds (armed : Option Armed) (request : TurnRequest) : TurnRequest :=
  match armed.bind (·.reservedFor request) with
  | some reserved => reserved.apply request
  | none => request

/-- What the call of a fork finds: the repository, the time, the identities that a post makes
up, and whether the store can save. -/
structure CallScene where
  world : Explore.World
  now : Nat
  fresh : FreshIds
  attempt : String
  storage : Except String Unit

/-- What the call of a fork changes: what the session keeps of run-ahead, and the saved forks
of the round. -/
structure Kept where
  runAhead : RunAheadState
  forks : RoundForks
  deriving DecidableEq

/-- The reply to a fork's submission; `shownAs` is the number of its question. -/
structure CallReply where
  applied : Bool
  shownAs : Option Nat
  deriving DecidableEq, Repr

/-- The round as it would be had the reviewer picked the fork's choice; once the reviewer did,
as it is. -/
def answeredFor (scene : CallScene) (round : ExploreRound) (request : TurnRequest) :
    Except String ExploreRound :=
  if (round.turns.lookup request.request).isSome then .ok round
  else (round.post request scene.fresh scene.attempt).map Prod.snd

/-- Check the turn that a fork submitted, and keep it for its choice. -/
def keepForkTurn (scene : CallScene) (round : Option ExploreRound) (fork : TakenFork)
    (update : InterviewUpdate) : EStateM String Kept CallReply := do
  let (request, instanceId) := (fork.request.request, fork.request.instanceId)
  found (ensure (update.instanceId = instanceId ∧ update.request = request)
    s!"This turn is for the request {request} of the round {instanceId}; submit for those only")
  match fork.kept with
  | some kept =>
    found (ensure (kept = update) "This turn is already submitted; end your turn now")
    return ⟨false, none⟩
  | none =>
    match round with
    | none => throw "No Explore round"
    | some saved =>
      let answered ← found (answeredFor scene saved fork.request)
      let (_, answered) ← found (answered.submit scene.world scene.now update)
      let shownAs := update.next.bind answered.exploration.questionNumber
      found scene.storage
      modify fun kept => { kept with
        forks := kept.forks.keepTurn fork.session update scene.now
        runAhead := kept.runAhead.changeFork fork.session fun taken =>
          { taken with kept := some update } }
      return ⟨true, shownAs⟩

variable {start round posted : ExploreRound} {question : Question} {request : TurnRequest}

/-- The answer gives a question this choice, whatever its text. -/
structure Picks (exploration : Exploration) (question : Question) (choice : Alternative)
    (answer : ReviewerAnswer) : Prop where
  context : ∃ turn, exploration.context ⟨none, "", none, none, false⟩ (some question) = some turn ∧
    answer.inReplyTo = turn.update.request
  checkpoint : answer.checkpoint = exploration.comparison.checkpoint
  question : answer.question = some question
  option : answer.option = some choice
  author : answer.author = "reviewer"
  drawingBoard : answer.drawingBoard = false

theorem Picks.alike {exploration : Exploration} {choice : Alternative} {bare answer : ReviewerAnswer}
    (first : Picks exploration question choice bare) (second : Picks exploration question choice answer)
    (same : answer.id = bare.id) (text : bare.text = "") : Exploration.Alike bare answer := by
  obtain ⟨⟨turn, found, replies⟩, checkpoint, asked, option, author, board⟩ := first
  obtain ⟨⟨other, found', replies'⟩, checkpoint', asked', option', author', board'⟩ := second
  obtain rfl := Option.some.inj (found.symm.trans found')
  refine ⟨text, ?_⟩
  cases bare
  cases answer
  dsimp only at *
  subst_vars
  rfl

/-- The answer that the round records for a choice. -/
theorem picks_of_record {exploration kept : Exploration} {input : AnswerInput} {picked id : String}
    {answer : ReviewerAnswer}
    (ran : exploration.record input (some question) id = .ok (answer, kept))
    (chose : input.option = some picked) (board : input.drawingBoard = false) :
    ∃ choice, question.choice picked = some choice ∧ Picks exploration question choice answer ∧
      answer.text = input.text := by
  obtain ⟨turn, option, found, chosen, rfl⟩ := Exploration.record_question ran
  cases offered : question.choice picked with
  | none => simp [Exploration.chosen, chose, offered] at chosen
  | some choice =>
    obtain rfl : some choice = option := by simpa [Exploration.chosen, chose, offered] using chosen
    exact ⟨choice, rfl, ⟨⟨turn, found, rfl⟩, rfl, rfl, rfl, rfl, board⟩, rfl⟩

/-- What a request made for a choice carries. -/
theorem picks_of_request {exploration kept : Exploration} {input : AnswerInput} {picked : String}
    {made : FreshIds}
    (ran : exploration.request (some input) (some question) made = .ok (request, kept))
    (chose : input.option = some picked) (board : input.drawingBoard = false) :
    ∃ answer choice, request.answer = some answer ∧ question.choice picked = some choice ∧
      Picks exploration question choice answer ∧ answer.text = input.text := by
  obtain ⟨_, ran⟩ := ensure_bind_eq_ok.mp ran
  obtain ⟨⟨answer, after⟩, recorded, ran⟩ := except_bind_eq_ok.mp ran
  obtain ⟨⟨made, _⟩, recording, same⟩ := except_map_eq_ok.mp recorded
  cases same
  cases ran
  obtain ⟨choice, offered, picks, text⟩ := picks_of_record recording chose board
  exact ⟨made, choice, rfl, offered, picks, text⟩

/-- What the post of an answer with a choice found, and the interview it leaves. -/
theorem post_picks {ids : FreshIds} {attempt : String} {new : Bool} {choice : Alternative}
    {answer : ReviewerAnswer} (unsent : round.turns.lookup request.request = none)
    (ran : round.post request ids attempt = .ok (new, posted)) (given : request.answer = some answer)
    (asked : answer.question = some question) (option : answer.option = some choice)
    (offered : question.choice choice.id = some choice) (board : answer.drawingBoard = false) :
    request.instanceId = round.exploration.instanceId ∧
      posted.exploration = round.exploration.asked request ∧
      Picks round.exploration question choice answer := by
  obtain ⟨home, ran⟩ := ensure_bind_eq_ok.mp ran
  rw [unsent] at ran
  obtain ⟨⟨validated, _⟩, made, ran⟩ := except_bind_eq_ok.mp ran
  obtain ⟨_, ran⟩ := ensure_bind_eq_ok.mp ran
  obtain ⟨answers, admitted, ran⟩ := except_bind_eq_ok.mp ran
  cases ran
  rw [given, Option.map_some, Option.bind_some, asked] at made
  obtain ⟨expected, found, recorded, offers, picks, _⟩ := picks_of_request made
    (by rw [ExploreRound.inputOf, option]; rfl) board
  obtain rfl := Option.some.inj (offers.symm.trans offered)
  simp only [recorded, given, ExploreRound.admitAnswer, ensure_bind_eq_ok] at admitted
  obtain ⟨same, _, admitted⟩ := admitted
  cases admitted
  refine ⟨home.1, by simp [Exploration.asked, given], ?_⟩
  rw [← same]
  exact ⟨picks.context, picks.checkpoint, picks.question, picks.option, picks.author,
    picks.drawingBoard⟩

/-- The request of a fork carries the choice, with nothing that the reviewer wrote. -/
theorem forkRequest_eq_ok {choice : Alternative} {reserved : ReservedIds} {made : FreshIds}
    (ran : forkRequest round question choice reserved made = .ok request) :
    request.request = reserved.request ∧ ∃ answer option, request.answer = some answer ∧
      answer.id = reserved.answer ∧ answer.question = some question ∧ answer.option = some option ∧
      question.choice choice.id = some option ∧ answer.drawingBoard = false ∧ answer.text = "" := by
  obtain ⟨⟨plain, kept⟩, asked, ran⟩ := except_bind_eq_ok.mp ran
  cases ran
  have asked : round.exploration.request (some ⟨some choice.id, "", none, none, false⟩)
      (some question) made = .ok (plain, kept) := by
    revert asked
    cases round.exploration.request (some ⟨some choice.id, "", none, none, false⟩)
      (some question) made with
    | error failure => exact fun absent => nomatch absent
    | ok result => exact fun same => congrArg _ (Except.ok.inj same)
  obtain ⟨answer, option, given, offered, picks, text⟩ := picks_of_request asked rfl rfl
  exact ⟨rfl, { answer with id := reserved.answer }, option, by simp [ReservedIds.apply, given], rfl,
    picks.question, picks.option, offered, picks.drawingBoard, text⟩

/-- What becomes of the submission of a fork: it is kept, and the round as it would be takes it;
or nothing changes. -/
theorem keepForkTurn_cases (scene : CallScene) (fork : TakenFork) (update : InterviewUpdate)
    (kept : Kept) :
    (∃ reply after, keepForkTurn scene (some round) fork update kept = .ok reply after ∧
      reply.applied = true ∧ update.instanceId = fork.request.instanceId ∧
      update.request = fork.request.request ∧
      ∃ answered result, answeredFor scene round fork.request = .ok answered ∧
        answered.submit scene.world scene.now update = .ok result) ∨
    (∃ failure, keepForkTurn scene (some round) fork update kept = .error failure kept) ∨
    fork.kept = some update ∧
      keepForkTurn scene (some round) fork update kept = .ok ⟨false, none⟩ kept := by
  unfold keepForkTurn
  dsimp only
  by_cases named : update.instanceId = fork.request.instanceId ∧ update.request = fork.request.request
  · simp only [ensure, if_pos named, found_ok_bind]
    cases held : fork.kept with
    | some earlier =>
      by_cases same : earlier = update
      · exact .inr (.inr ⟨congrArg some same, by simp [ensure, same]⟩)
      · exact .inr (.inl ⟨_, by simp only [ensure, if_neg same]; rfl⟩)
    | none =>
      cases would : answeredFor scene round fork.request with
      | error failure => exact .inr (.inl ⟨failure, by simp only [would]; rfl⟩)
      | ok answered =>
        cases submitted : answered.submit scene.world scene.now update with
        | error failure => exact .inr (.inl ⟨failure, by simp only [would, found_ok_bind, submitted]; rfl⟩)
        | ok result =>
          cases stored : scene.storage with
          | error failure =>
            exact .inr (.inl ⟨failure, by simp only [would, found_ok_bind, submitted, stored]; rfl⟩)
          | ok =>
            refine .inl ⟨_, _, by simp only [would, found_ok_bind, submitted, stored]; rfl, rfl,
              named.1, named.2, answered, result, rfl, submitted⟩
  · exact .inr (.inl ⟨_, by simp only [ensure, if_neg named]; rfl⟩)
open ExploreRound (step Identified)

/-- While a question waits, the request of an answer to it is a new one. -/
theorem unsent_of_waits {request : TurnRequest} {ids : FreshIds} {attempt : String}
    {result : Bool × ExploreRound}
    (waits : round.exploration.waitingTurn.bind (·.next) = some question)
    (ran : round.post request ids attempt = .ok result) :
    round.turns.lookup request.request = none := by
  have idle : round.exploration.retry = none := by
    cases pending : round.exploration.retry with
    | none => rfl
    | some _ => simp [Exploration.waitingTurn, pending] at waits
  obtain ⟨_, ran⟩ := ensure_bind_eq_ok.mp ran
  cases sent : round.turns.lookup request.request with
  | none => rfl
  | some previous =>
    rw [sent] at ran
    obtain ⟨latest, _⟩ := ensure_bind_eq_ok.mp ran
    simp [idle] at latest

/-- Both answers carry the same choice, so what the copy of the round takes from the fork the
round takes once the answer is posted. -/
theorem submitted_of_keeps {scene : CallScene} {fork : TakenFork} {update : InterviewUpdate}
    {kept : Kept} {bare answer : ReviewerAnswer} {choice : Alternative} {saved : ExploreRound}
    (unsent : round.turns.lookup fork.request.request = none)
    (unanswered : ∀ turn ∈ round.exploration.conversation,
      turn.update.request ≠ fork.request.request)
    (carried : fork.request.answer = some bare) (asked : bare.question = some question)
    (option : bare.option = some choice) (offered : question.choice choice.id = some choice)
    (board : bare.drawingBoard = false) (text : bare.text = "")
    (given : request.answer = some answer)
    (home : request.instanceId = round.exploration.instanceId)
    (named : request.request = fork.request.request)
    (picks : Picks round.exploration question choice answer) (same : answer.id = bare.id)
    (savedAs : saved.exploration = round.exploration.asked request)
    (keeps : ∃ reply after, keepForkTurn scene (some round) fork update kept = .ok reply after ∧
      reply.applied = true) (now : Nat) (diverged : List String) :
    ∃ after, saved.submitted scene.world now diverged update = .ok (true, after) := by
  obtain ⟨reply, after, ran, applied⟩ := keeps
  rcases keepForkTurn_cases scene fork update kept with
    ⟨_, _, _, _, instanceId, requested, copy, ⟨new, result⟩, would, submitted⟩ | ⟨_, failed⟩ | ⟨_, again⟩
  · rw [answeredFor, unsent] at would
    obtain ⟨⟨_, _⟩, posted, rfl⟩ := except_map_eq_ok.mp would
    obtain ⟨copyHome, copied, bares⟩ := post_picks unsent posted carried asked option offered board
    obtain ⟨⟨_, _⟩, submits, _⟩ := except_bind_eq_ok.mp submitted
    rw [copied] at submits
    have fresh : ∀ turn ∈ round.exploration.conversation, turn.update.request ≠ update.request :=
      requested ▸ unanswered
    have valid : (round.exploration.asked fork.request).Valid scene.world update :=
      Exploration.valid_of_submit rfl ⟨instanceId, requested⟩ fresh submits
    have valid : saved.exploration.Valid scene.world update :=
      savedAs ▸ (bares.alike picks same text).valid carried given valid
    obtain ⟨kept, submits⟩ := Exploration.submit_new (by rw [savedAs]; rfl)
      (by rw [savedAs]; exact home) ⟨instanceId.trans (copyHome.trans home.symm),
        requested.trans named.symm⟩ (by rw [savedAs]; exact fresh) valid
    exact ⟨_, by rw [ExploreRound.submitted, ExploreRound.submit, submits]; rfl⟩
  · rw [failed] at ran; cases ran
  · rw [again] at ran; cases ran; cases applied

/-- A turn kept for a choice is a turn the round takes, once the reviewer answered with that
choice and nothing but the delivery and the marks of the answer changed the round. -/
theorem kept_turn_taken (new : start.IsNew) (run : Reaches step Identified start round)
    (waits : round.exploration.waitingTurn.bind (·.next) = some question) {taken : ExploreRound}
    {choice : Alternative} {reserved : ReservedIds} {made : FreshIds} {fork : TakenFork}
    (forked : forkRequest taken question choice reserved made = .ok fork.request)
    {input : AnswerInput} {given : FreshIds} {plain : TurnRequest} {after : Exploration}
    (asks : round.exploration.request (some input) (some question) given = .ok (plain, after))
    (chose : input.option = some choice.id) (board : input.drawingBoard = false) {armed : Armed}
    (held : armed.reservedFor plain = some reserved) {ids : FreshIds} {attempt : String}
    (identified : round.Identified (.post (withReservedIds (some armed) plain) ids attempt))
    (posted : round.step (.post (withReservedIds (some armed) plain) ids attempt) ≠ round)
    {deliveries : List Action} (delivers : ∀ action ∈ deliveries, action.delivers = true)
    (scene : CallScene)
    -- What the fork kept, it kept of this round.
    (earlier : ∀ turn, fork.kept = some turn → ∃ before kept reply after,
      before.world = scene.world ∧
      keepForkTurn before (some round) { fork with kept := none } turn kept = .ok reply after ∧
        reply.applied = true)
    (update : InterviewUpdate) (kept : Kept) :
    let saved := deliveries.foldl step
      (round.step (.post (withReservedIds (some armed) plain) ids attempt))
    ((∃ reply after, keepForkTurn scene (some round) fork update kept = .ok reply after ∧
        reply.applied = true) →
      ∀ now diverged, ∃ after, saved.submitted scene.world now diverged update = .ok (true, after)) ∧
    ((∃ now diverged failure, saved.submitted scene.world now diverged update = .error failure) →
      ∃ failure, keepForkTurn scene (some round) fork update kept = .error failure kept) := by
  intro saved
  have real : withReservedIds (some armed) plain = reserved.apply plain := by
    simp only [withReservedIds, Option.bind_some, held]
  rw [real] at identified posted
  obtain ⟨coherent, _⟩ := ExploreRound.unsaved_of_reaches new run
  obtain ⟨changed, revision, ran, stepped⟩ := (round.step_eq _).resolve_left posted
  obtain ⟨⟨isNew, _⟩, posts, rfl⟩ := except_map_eq_ok.mp ran
  have unsent : round.turns.lookup reserved.request = none := unsent_of_waits waits posts
  have unanswered : ∀ turn ∈ round.exploration.conversation,
      turn.update.request ≠ reserved.request := fun turn mem same =>
    ExploreRound.post_answered coherent mem same.symm identified ⟨_, posts⟩
  obtain ⟨named, bare, option, carried, bareId, asked, bareOption, offered, bareBoard, text⟩ :=
    forkRequest_eq_ok forked
  obtain ⟨answer, other, plainAnswer, offered', picks, _⟩ := picks_of_request asks chose board
  obtain rfl := Option.some.inj (offered'.symm.trans offered)
  have own : question.choice other.id = some other := by
    have same : other.id = choice.id := by simpa using List.find?_some offered
    rw [same]; exact offered
  have answered : (reserved.apply plain).answer = some { answer with id := reserved.answer } := by
    simp [ReservedIds.apply, plainAnswer]
  obtain ⟨home, exploration, picks⟩ := post_picks unsent posts answered picks.question picks.option own
    picks.drawingBoard
  have savedAs : saved.exploration = round.exploration.asked (reserved.apply plain) := by
    rw [ExploreRound.exploration_foldl delivers, real, stepped]
    exact exploration
  have takes : ∀ {scene fork' update kept}, fork'.request = fork.request →
      (∃ reply after, keepForkTurn scene (some round) fork' update kept = .ok reply after ∧
        reply.applied = true) →
      ∀ now diverged, ∃ after, saved.submitted scene.world now diverged update = .ok (true, after) :=
    fun same keeps => by
      rw [← named, ← same] at unsent unanswered
      exact submitted_of_keeps unsent unanswered (same ▸ carried) asked bareOption own bareBoard text
        answered home (by rw [same, named]; rfl) picks bareId.symm savedAs keeps
  refine ⟨takes rfl, fun ⟨now, diverged, failure, refused⟩ => ?_⟩
  rcases keepForkTurn_cases scene fork update kept with ⟨reply, after, ran, applied, _⟩ | failed | again
  · obtain ⟨_, took⟩ := takes rfl ⟨reply, after, ran, applied⟩ now diverged
    rw [took] at refused
    cases refused
  · exact failed
  · obtain ⟨before, kept, reply, after, world, keeps⟩ := earlier update again.1
    obtain ⟨_, took⟩ := @takes before { fork with kept := none } update kept rfl
      ⟨reply, after, keeps⟩ now diverged
    rw [world, refused] at took
    cases took

/-! A fork of the first question's choice. -/

namespace Sample

open Explore.Sample (waiting opened isNew_opened comparison world closing)

def choice : Alternative := ⟨"yes", "Yes", .accepted, none⟩

def reserved : ReservedIds := ⟨"picked", "pick"⟩

def pick : ReviewerAnswer :=
  { Explore.Sample.answer "pick" (some (Explore.Sample.question "why")) "kickoff" with
    option := some choice, text := "" }

def fork : TakenFork where
  session := "fork"
  access := "access"
  choice := "yes"
  request := Explore.Sample.request "picked" (some pick) []
  turn := ⟨"access", "round", "picked", ""⟩
  kept := none
  ended := false

def armed : Armed where
  generation := 1
  asked := ⟨⟨"unit", "round"⟩, Explore.Sample.question "why", "pane"⟩
  askedAtMs := 0
  taken := some ⟨⟨"session", none⟩, 0, [fork], ""⟩
  worked := false
  refusal := none
  refusalCounted := false
  talk := none
  reserved := SortedMap.empty.insert "yes" reserved

/-- What the pane asks with the choice and a first pick. -/
def plain : TurnRequest :=
  Explore.Sample.request "plain" (some { pick with id := "plain-answer", firstPick := some "no" }) []

def scene : CallScene := ⟨world, 0, ⟨"copy", "copy-answer"⟩, "copied", .ok ()⟩

def submission : InterviewUpdate :=
  { closing "picked" with interpretation := some ⟨"pick", .accepted, "Recap", []⟩ }

def before : Kept := ⟨{ RunAheadState.new ⟨1, 1⟩ with armed := some armed }, .empty⟩

theorem forked : forkRequest waiting (Explore.Sample.question "why") choice reserved
    ⟨"fork", "fork-answer"⟩ = .ok fork.request := rfl

theorem asks : ∃ after, waiting.exploration.request (some ⟨some "yes", "", none, some "no", false⟩)
    (some (Explore.Sample.question "why")) ⟨"plain", "plain-answer"⟩ = .ok (plain, after) := ⟨_, rfl⟩

theorem kept_and_taken : (∃ reply after,
      keepForkTurn scene (some waiting) fork submission before = .ok reply after ∧
        reply.applied = true) ∧
    ∃ after, ([Action.mark "kickoff" ⟨some "pick", [], [], [], none⟩].foldl step
      (waiting.step (.post (withReservedIds (some armed) plain) ⟨"post", "post-answer"⟩
        "attempt"))).submitted world 1 [] submission = .ok (true, after) := by
  have keeps : ∃ reply after, keepForkTurn scene (some waiting) fork submission before =
      .ok reply after ∧ reply.applied = true := ⟨_, _, rfl, rfl⟩
  obtain ⟨_, asks⟩ := asks
  have may : AllAllowed step Identified opened
      [Explore.Sample.post (Explore.Sample.request "kickoff" none []),
        Explore.Sample.submit (Explore.Sample.first "why" [Explore.Sample.topic])] := by decide
  have run : Reaches step Identified opened waiting := Reaches.start.foldl may
  exact ⟨keeps, (kept_turn_taken isNew_opened run (by decide) forked asks rfl rfl rfl (by decide)
    (by decide) (by decide) scene (fun _ absent => nomatch absent) submission before).1 keeps 1 []⟩

end Sample

end ProgressiveReviewer.RunAhead
