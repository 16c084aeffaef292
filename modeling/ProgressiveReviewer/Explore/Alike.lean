import ProgressiveReviewer.Explore.Acceptance

/-! Answers that say the same but for their text: the round checks the turn after them alike. -/

namespace ProgressiveReviewer.Explore

open Library

namespace Exploration

variable {exploration : Exploration} {world : World} {update : InterviewUpdate}

/-- The interview once a request of the reviewer is posted. -/
def asked (exploration : Exploration) (request : TurnRequest) : Exploration :=
  { exploration with
    cancelled := []
    answers := exploration.answers ++ request.answer.toList
    outstanding := some request
    retry := some request }

/-- What the answer to a question records. -/
theorem record_question {input : AnswerInput} {question : Question} {id : String}
    {answer : ReviewerAnswer} {kept : Exploration}
    (ran : exploration.record input (some question) id = .ok (answer, kept)) :
    ∃ turn option, exploration.context input (some question) = some turn ∧
      chosen input (some question) = .ok option ∧
      answer = ⟨id, exploration.comparison.checkpoint, some question, turn.update.request, option,
        input.text, "reviewer", input.firstPick, input.drawingBoard⟩ := by
  unfold record at ran
  split at ran
  · cases ran
  · next turn found =>
    obtain ⟨_, ran⟩ := ensure_bind_eq_ok.mp ran
    obtain ⟨_, _, ran⟩ := except_bind_eq_ok.mp ran
    obtain ⟨option, chose, ran⟩ := except_bind_eq_ok.mp ran
    obtain ⟨_, _, ran⟩ := by simpa only [ensure_bind_eq_ok] using ran
    cases ran
    exact ⟨turn, option, found, chose, by simp [repliesAtDrawingBoard]⟩

theorem validateTopics_asked {first second : TurnRequest} (ids : List String) (topics : List Topic) :
    (exploration.asked second).validateTopics world ids topics =
      (exploration.asked first).validateTopics world ids topics := by
  induction topics generalizing ids with
  | nil => rfl
  | cons topic topics ih =>
    simp only [validateTopics, ih]
    rfl

/-- Two answers with the same choice, of which the first says nothing else. -/
structure Alike (bare answer : ReviewerAnswer) : Prop where
  text : bare.text = ""
  same : answer = { bare with text := answer.text, firstPick := answer.firstPick }

namespace Alike

variable {bare answer : ReviewerAnswer} {first second : TurnRequest}

theorem answersTopic (alike : Alike bare answer) (given : first.answer = some bare)
    (given' : second.answer = some answer) (id topic : String) :
    (exploration.asked second).answersTopic id topic =
      (exploration.asked first).answersTopic id topic := by
  rw [Exploration.answersTopic, Exploration.answersTopic, asked, asked, given, given', alike.same]
  simp

theorem named (alike : Alike bare answer) (given : first.answer = some bare)
    (given' : second.answer = some answer) (id : String) :
    (exploration.asked second).answers.any (·.id = id) =
      (exploration.asked first).answers.any (·.id = id) := by
  rw [asked, asked, given, given', alike.same]
  simp

theorem agendaChangeFrom (alike : Alike bare answer) (given : first.answer = some bare)
    (given' : second.answer = some answer) (topic : String) (changes : List AgendaChange)
    (turns : List ConversationTurn) :
    (exploration.asked second).agendaChangeFrom topic changes turns =
      (exploration.asked first).agendaChangeFrom topic changes turns := by
  induction turns with
  | nil => rfl
  | cons turn earlier ih =>
    simp only [Exploration.agendaChangeFrom, alike.answersTopic given given', ih]

theorem agendaChange (alike : Alike bare answer) (given : first.answer = some bare)
    (given' : second.answer = some answer) (topic : String) :
    (exploration.asked second).agendaChange topic = (exploration.asked first).agendaChange topic :=
  alike.agendaChangeFrom given given' topic _ _

theorem validateSentTopics (alike : Alike bare answer) (given : first.answer = some bare)
    (given' : second.answer = some answer) (topics : SortedMap String Topic) (sent : List Topic) :
    (exploration.asked second).validateSentTopics topics sent =
      (exploration.asked first).validateSentTopics topics sent := by
  induction sent generalizing topics with
  | nil => rfl
  | cons topic sent ih =>
    simp only [Exploration.validateSentTopics, alike.agendaChange given given', ih]
    rfl

theorem validateChanges (alike : Alike bare answer) (given : first.answer = some bare)
    (given' : second.answer = some answer) (topics : SortedMap String Topic)
    (agenda : List AgendaChange) (changed : List String) (changes : List AgendaChange) :
    (exploration.asked second).validateChanges world topics agenda changed changes =
      (exploration.asked first).validateChanges world topics agenda changed changes := by
  induction changes generalizing changed with
  | nil => rfl
  | cons change changes ih =>
    have reason : change.validateReason (exploration.asked second) world =
        change.validateReason (exploration.asked first) world := by
      simp only [AgendaChange.validateReason, alike.named given given']
      rfl
    have replacement : change.validateReplacement (exploration.asked second) topics agenda =
        change.validateReplacement (exploration.asked first) topics agenda := by
      simp only [AgendaChange.validateReplacement, alike.agendaChange given given']
    have decision : change.validateDecision (exploration.asked second) =
        change.validateDecision (exploration.asked first) := by
      simp only [AgendaChange.validateDecision, AgendaChange.decided,
        alike.answersTopic given given']
      rfl
    simp only [Exploration.validateChanges, reason, replacement, decision, ih]

theorem validateAgenda (alike : Alike bare answer) (given : first.answer = some bare)
    (given' : second.answer = some answer) :
    (exploration.asked second).validateAgenda world update =
      (exploration.asked first).validateAgenda world update := by
  simp only [Exploration.validateAgenda, alike.validateSentTopics given given',
    alike.validateChanges given given']
  rfl

theorem validateInterpretation (alike : Alike bare answer) (given : first.answer = some bare)
    (given' : second.answer = some answer)
    (passed : (exploration.asked first).validateInterpretation update = .ok ()) :
    (exploration.asked second).validateInterpretation update = .ok () := by
  have before : (exploration.asked first).outstandingAnswer = some bare := given
  have after : (exploration.asked second).outstandingAnswer = some answer := given'
  have same := alike.same
  simp only [Exploration.validateInterpretation, before] at passed
  simp only [Exploration.validateInterpretation, after]
  cases interpreted : update.interpretation with
  | none =>
    rw [interpreted] at passed
    -- The bare answer has no text, so its choice leaves the topic open.
    have left := (ensure_eq_ok.mp passed).resolve_right (not_not.mpr alike.text)
    exact ensure_eq_ok.mpr (.inl (by rw [same]; exact left))
  | some interpretation =>
    simp only [interpreted, ensure_bind_eq_ok] at passed
    obtain ⟨asked, exact, kept, followed⟩ := passed
    have outcome := kept.resolve_left (not_not.mpr alike.text)
    simp only [ensure_bind_eq_ok]
    exact ⟨by rw [same]; exact asked, by rw [same]; exact exact,
      .inr (by rw [same]; exact outcome), followed⟩

theorem validateQuestion (alike : Alike bare answer) (given : first.answer = some bare)
    (given' : second.answer = some answer) (question : Question) :
    (exploration.asked second).validateQuestion world question update =
      (exploration.asked first).validateQuestion world question update := by
  have on (topic : String) : (exploration.asked second).answersOn topic =
      (exploration.asked first).answersOn topic := by
    simp only [answersOn, outstandingAnswer, asked, Option.bind_some, given, given']
    rw [alike.same]
    rfl
  have lifecycle : (exploration.asked second).validateLifecycle question update =
      (exploration.asked first).validateLifecycle question update := by
    simp only [validateLifecycle, questionTopicStatus, alike.agendaChange given given', on]
    rfl
  simp only [Exploration.validateQuestion, lifecycle]
  rfl

/-- What the round checks of a turn it checks alike for both answers, but for the text, which
only allows more. -/
theorem valid (alike : Alike bare answer) (given : first.answer = some bare)
    (given' : second.answer = some answer) (valid : Valid world (exploration.asked first) update) :
    Valid world (exploration.asked second) update where
  checkpoint := valid.checkpoint
  ends := valid.ends
  drawingBoard := by
    have board : (exploration.asked second).outstanding.any (·.atDrawingBoard) =
        (exploration.asked first).outstanding.any (·.atDrawingBoard) := by
      simp only [asked, Option.any_some, TurnRequest.atDrawingBoard, given, given']
      rw [alike.same]
    have passed := valid.drawingBoard
    rw [validateDrawingBoard] at passed ⊢
    rwa [board]
  interpretation := alike.validateInterpretation given given' valid.interpretation
  conclusion := valid.conclusion
  design := by
    have kickoff : (exploration.asked second).outstanding.any (·.isKickoff) =
        (exploration.asked first).outstanding.any (·.isKickoff) := by
      simp only [asked, Option.any_some, TurnRequest.isKickoff, given, given', Option.isNone_some]
    have passed := valid.design
    rw [validateDesign] at passed ⊢
    rwa [kickoff]
  reply := by
    have answered : (exploration.asked second).answered = (exploration.asked first).answered := by
      simp only [Exploration.answered, outstandingAnswer, asked, Option.bind_some, given, given',
        Option.isSome_some]
    have passed := valid.reply
    rw [validateReply, answered]
    exact passed
  topics := (validateTopics_asked [] update.topics).trans valid.topics
  glossary := valid.glossary
  agenda := (alike.validateAgenda given given').trans valid.agenda
  marks := by
    have answered : (exploration.asked second).answered = (exploration.asked first).answered := by
      simp only [Exploration.answered, outstandingAnswer, asked, Option.bind_some, given, given',
        Option.isSome_some]
    have passed := valid.marks
    simp only [validateMarks, answered]
    exact passed
  challenger := valid.challenger
  next := fun question asked =>
    (alike.validateQuestion given given' question).trans (valid.next question asked)

end Alike

end Exploration

/-- The turn of the outstanding request, once its checks passed, is new. -/
theorem Exploration.submit_new {exploration : Exploration} {request : TurnRequest} {world : World}
    {update : InterviewUpdate} (waits : exploration.outstanding = some request)
    (home : request.instanceId = exploration.instanceId)
    (named : update.instanceId = request.instanceId ∧ update.request = request.request)
    (unanswered : ∀ turn ∈ exploration.conversation, turn.update.request ≠ update.request)
    (valid : exploration.Valid world update) :
    ∃ kept, exploration.submit world update = .ok (true, kept) := by
  have none : (exploration.conversation.find? fun turn =>
      turn.update.request = update.request) = none :=
    List.find?_eq_none.mpr fun turn mem => by simpa using unanswered turn mem
  have passed : exploration.validate world update = .ok () := validate_eq_ok.mpr valid
  rw [submit, ensure, if_pos (named.1.trans home), none]
  dsimp only [bind, Except.bind]
  rw [ensure, if_pos (by simp [waits, named.2]), apply, waits]
  dsimp only
  rw [if_neg (by simp [named.1, named.2]), passed]
  exact ⟨_, rfl⟩

/-- The round took the turn of the outstanding request, so its checks passed. -/
theorem Exploration.valid_of_submit {exploration kept : Exploration} {request : TurnRequest}
    {world : World} {update : InterviewUpdate} {new : Bool}
    (waits : exploration.outstanding = some request)
    (named : update.instanceId = request.instanceId ∧ update.request = request.request)
    (unanswered : ∀ turn ∈ exploration.conversation, turn.update.request ≠ update.request)
    (ran : exploration.submit world update = .ok (new, kept)) : exploration.Valid world update := by
  have none : (exploration.conversation.find? fun turn =>
      turn.update.request = update.request) = none :=
    List.find?_eq_none.mpr fun turn mem => by simpa using unanswered turn mem
  obtain ⟨_, ran⟩ := ensure_bind_eq_ok.mp ran
  rw [none] at ran
  obtain ⟨_, ran⟩ := ensure_bind_eq_ok.mp ran
  rw [apply, waits] at ran
  dsimp only at ran
  rw [if_neg (by simp [named.1, named.2])] at ran
  exact validate_eq_ok.mp (except_bind_eq_ok.mp ran).choose_spec.1

namespace Action

/-- The operations that deliver a posted turn, and those that record what it marked. -/
def delivers : Action → Bool
  | .mark .. | .beginDispatch .. | .finishDispatch .. | .pin _ => true
  | _ => false

end Action

namespace ExploreRound

variable {round changed : ExploreRound}

theorem exploration_step {action : Action} (delivers : action.delivers = true) :
    (round.step action).exploration = round.exploration := by
  rcases round.step_eq action with same | ⟨changed, revision, ran, same⟩
  · rw [same]
  · rw [same]
    cases action with
    | mark request marks => cases ran; rfl
    | pin session => cases ran; rfl
    | finishDispatch result now =>
      cases ran
      show (round.finishDispatch result now).exploration = round.exploration
      unfold finishDispatch
      split
      · split_ifs
        · unfold delivered setDispatchState
          cases result.id <;> cases result.state <;> rfl
        · rfl
      · rfl
    | beginDispatch id agent now =>
      obtain ⟨_, _, ran⟩ := except_bind_eq_ok.mp ran
      dsimp only at ran
      split at ran
      · cases ran
      · obtain ⟨_, ran⟩ := ensure_bind_eq_ok.mp ran
        cases ran
        cases id <;> rfl
    | _ => cases delivers

theorem exploration_foldl {deliveries : List Action}
    (delivers : ∀ action ∈ deliveries, action.delivers = true) :
    (deliveries.foldl step round).exploration = round.exploration := by
  induction deliveries generalizing round with
  | nil => rfl
  | cons action rest ih =>
    exact (ih fun other mem => delivers other (List.mem_cons_of_mem _ mem)).trans
      (exploration_step (delivers action List.mem_cons_self))

end ExploreRound

end ProgressiveReviewer.Explore
