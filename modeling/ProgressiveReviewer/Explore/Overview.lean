import ProgressiveReviewer.Explore.Quiz

/-! What the screens show of a whole round around its current step: the steps of the rail, the
reviewer's decisions, the record of each earlier question and the title of the browser's tab
(`review-explore/src/overview.rs`, `overview/`). -/

namespace ProgressiveReviewer.Explore

open Library

def ReviewerAnswer.answers (answer : ReviewerAnswer) (question : Question) : Bool :=
  answer.question = some question

/-- One question of the rail: the versions of it that the agent posted one after the other. -/
structure QuestionStep where
  /-- The step's number in the rail, from 1. -/
  number : Nat
  versions : List Question
  deriving DecidableEq

namespace QuestionStep

/-- The question steps of a round, in the order the agent posted them. -/
def of (exploration : Exploration) : List QuestionStep :=
  (exploration.questions.splitBy fun earlier later => earlier.id = later.id).zipIdx.map
    fun (versions, index) => ⟨index + 1, versions⟩

variable (step : QuestionStep)

/-- The step's latest version; a step of a round has one. -/
def question : Option Question := step.versions.getLast?

/-- The reviewer's latest answer to the step's latest version. -/
def answer (exploration : Exploration) : Option ReviewerAnswer :=
  step.question.bind fun question =>
    exploration.answers.reverse.find? fun answer => answer.answers question

def holds (question : Question) : Bool :=
  step.versions.any fun version => version.isVersion question.id question.version

def answeredBy (answer : ReviewerAnswer) : Bool :=
  step.versions.any fun question => answer.answers question

end QuestionStep

namespace Exploration

variable (exploration : Exploration)

/-- The number of the rail's step that holds a question, in its version. -/
def questionNumber (question : Question) : Option Nat :=
  ((QuestionStep.of exploration).reverse.find? fun step => step.holds question).map (·.number)

/-- The number of the question that an answer answers. -/
def answeredNumber (answer : ReviewerAnswer) : Option Nat :=
  answer.question.bind exploration.questionNumber

/-- The design of the change, as the round's first turn explained it. -/
def design : Option Design :=
  (exploration.conversation.head?.filter (·.answer.isNone)).bind (·.update.design)

/-- The agent's turn that took up an answer. -/
def turnAfter (answer : String) : Option ConversationTurn :=
  exploration.conversation.find? fun turn => turn.answer = some answer

/-- How the agent interpreted an answer, the latest time. -/
def interpretation (answer : String) : Option Interpretation :=
  exploration.interpretations.reverse.find? fun interpretation => interpretation.answer = answer

def cancelledSinceLastTurn : Bool := !exploration.cancelled.isEmpty

end Exploration

/-- What the agent does with the turn the round waits for. -/
inductive Activity where
  | working
  | interrupted
  | idle
  deriving DecidableEq, Repr

/-- How far the reviewer is in the quiz. -/
inductive QuizStage where
  | later
  | running (item items : Nat)
  | scored (correct answered items : Nat)
  deriving DecidableEq, Repr

def QuizAnswers.correctPicks (answers : QuizAnswers) : Nat := (answers.picks.filter (·.correct)).length

/-- A conclusion's quiz, and what the reviewer answered of it. -/
structure QuizProgress where
  items : Nat
  answers : Option QuizAnswers
  deriving DecidableEq, Repr

namespace QuizProgress

variable (quiz : QuizProgress)

/-- The item answered next, zero-based. -/
def nextItem : Option Nat :=
  match quiz.answers with
  | some answers => answers.nextItem quiz.items
  | none => some 0

def running : Bool := quiz.nextItem.isSome

def stage : QuizStage :=
  match quiz.answers.filter fun answers => (answers.nextItem quiz.items).isNone with
  | some answers => .scored answers.correctPicks answers.picks.length quiz.items
  | none => .running (quiz.nextItem.getD 0 + 1) quiz.items

end QuizProgress

/-- What the agent's latest turn posted. -/
inductive LatestTurn where
  | none
  | question
  | conclusion (quiz : Option QuizProgress)
  deriving DecidableEq, Repr

/-- The step the round stands at. -/
inductive Current where
  | design
  | question (number : Nat)
  | quiz
  | conclusion
  deriving DecidableEq, Repr

/-- Where the round stands. -/
structure Position where
  activity : Activity
  latest : LatestTurn
  current : Current
  deriving DecidableEq, Repr

namespace Position

def new (activity : Activity) (latest : LatestTurn) (questions : Nat) : Position where
  activity := activity
  latest := latest
  current := match latest with
    | .none => .design
    | .question => .question questions
    | .conclusion quiz => if quiz.any (·.running) then .quiz else .conclusion

/-- `delivering` is the request of the turn that the session delivers now. -/
def activityOf (exploration : Exploration) (delivering : Option String) : Activity :=
  match exploration.outstanding with
  | some pending => if delivering = some pending.request then .working else .interrupted
  | none => if exploration.retry.isSome then .interrupted else .idle

def latestOf (exploration : Exploration) : LatestTurn :=
  match exploration.conversation.getLast? with
  | none => .none
  | some turn =>
    match turn.update.conclusion with
    | some conclusion => .conclusion (if conclusion.quiz.isEmpty then none else
        some ⟨conclusion.quiz.length, exploration.quizAnswers.lookup turn.update.request⟩)
    | none => .question

def of (exploration : Exploration) (steps : List QuestionStep) (delivering : Option String) :
    Position :=
  new (activityOf exploration delivering) (latestOf exploration) steps.length

variable (position : Position)

def concluded : Bool :=
  match position.latest with
  | .conclusion _ => true
  | _ => false

def quiz : Option QuizProgress :=
  match position.latest with
  | .conclusion quiz => quiz
  | _ => none

/-- Whether the round went past a question step. -/
def passed (step : QuestionStep) : Bool := position.current ≠ .question step.number

end Position

/-- A step of the round. -/
inductive Step where
  | design
  | question (number : Nat)
  | quiz (stage : QuizStage)
  | conclusion
  deriving DecidableEq, Repr

inductive StepState where
  | done
  | current (working : Bool)
  | later
  deriving DecidableEq, Repr

def StepState.of (position : Position) (step : Current) (done : Bool) : StepState :=
  if position.current = step then .current (position.activity = .working)
  else if done then .done
  else .later

structure RailStep where
  step : Step
  state : StepState
  deriving DecidableEq, Repr

/-- The quiz step: a later step before the conclusion, none for a conclusion without a quiz. -/
def Step.ofQuiz (position : Position) : Option Step :=
  if position.concluded then position.quiz.map fun quiz => .quiz quiz.stage else some (.quiz .later)

def RailStep.rail (design : Bool) (questions : Nat) (position : Position) : List RailStep :=
  let step (step : Step) (current : Current) (done : Bool) : RailStep :=
    ⟨step, StepState.of position current done⟩
  (if design then [step .design .design true] else []) ++
    ((List.range questions).map fun index =>
      step (.question (index + 1)) (.question (index + 1)) true) ++
    (Step.ofQuiz position).toList.map (fun quiz => step quiz .quiz position.concluded) ++
    [step .conclusion .conclusion false]

/-- What the tab's title says before the review's name. -/
inductive TabTitle where
  | yourTurn (question : Nat)
  | agentWorking
  | retryNeeded
  | conclusion
  deriving DecidableEq, Repr

def TabTitle.of (position : Position) : TabTitle :=
  match position.activity, position.current with
  | .working, _ => .agentWorking
  | .interrupted, _ | .idle, .design => .retryNeeded
  | .idle, .question question => .yourTurn question
  | .idle, .quiz | .idle, .conclusion => .conclusion

/-- How the kept choice relates to the first pick and to the recommendation. -/
inductive DecisionTag where
  | changedAfterFirstPick
  | asRecommended
  deriving DecidableEq, Repr

/-- The answer the reviewer kept on a question. -/
structure KeptAnswer where
  choice : Option String
  comment : String
  tags : List DecisionTag
  drawingBoard : Bool
  deriving DecidableEq, Repr

namespace KeptAnswer

def new (kept : Option Alternative) (comment : String) (firstPick : Option String) : KeptAnswer where
  choice := kept.map (·.text)
  comment := comment
  tags :=
    (if firstPick.any fun first => kept.all (·.id ≠ first) then [.changedAfterFirstPick] else []) ++
    if kept.any (·.recommendation.isSome) then [.asRecommended] else []
  drawingBoard := false

def of (answer : ReviewerAnswer) : KeptAnswer :=
  let kept := new answer.option answer.text answer.firstPick
  if answer.drawingBoard then
    { kept with choice := some "Back to the drawing board", tags := [], drawingBoard := true }
  else kept

end KeptAnswer

/-- One line of the reviewer's decisions. -/
structure Decision where
  number : Nat
  question : String
  answer : KeptAnswer
  deriving DecidableEq, Repr

def Decision.of (exploration : Exploration) (step : QuestionStep) : Option Decision := do
  let question ← step.question
  let answer ← step.answer exploration
  return ⟨step.number, question.text, .of answer⟩

/-- What Cancel answer takes back from an earlier question. -/
structure CancelFrom where
  answer : String
  /-- How many answers came after it. -/
  later : Nat
  deriving DecidableEq, Repr

/-- What the agent recorded of an answer. -/
structure AgentRecord where
  interpretation : Option Interpretation
  reply : Option String
  deriving DecidableEq, Repr

/-- A question step the round went past. -/
structure EarlierQuestion where
  number : Nat
  question : Question
  answer : Option KeptAnswer
  recorded : AgentRecord
  marks : List TurnMarks
  cancel : Option CancelFrom
  deriving DecidableEq, Repr

/-- The marks that the answers `applied` selects applied, in the order of the turns that asked
for them. -/
def ExploreRound.marksAppliedBy (round : ExploreRound) (applied : ReviewerAnswer → Bool) :
    List TurnMarks :=
  (round.exploration.conversation.filterMap fun turn => round.marks.lookup turn.update.request).filter
    fun marks => marks.answer.any fun id =>
      round.exploration.answers.any fun answer => answer.id = id && applied answer

def EarlierQuestion.of (round : ExploreRound) (step : QuestionStep) : Option EarlierQuestion := do
  let exploration := round.exploration
  let question ← step.question
  let answer := step.answer exploration
  return {
    number := step.number
    question := question
    answer := answer.map .of
    recorded := match answer with
      | none => ⟨none, none⟩
      | some answer => ⟨exploration.interpretation answer.id,
        ((exploration.turnAfter answer.id).bind (·.update.reply)).map (·.text)⟩
    marks := round.marksAppliedBy step.answeredBy
    cancel := answer.bind fun answer =>
      (exploration.answers.findIdx? fun kept => kept.id = answer.id).map fun index =>
        ⟨answer.id, exploration.answers.length - index - 1⟩ }

/-- The overview of one round. -/
structure RoundOverview where
  rail : List RailStep
  decisions : List Decision
  earlier : List EarlierQuestion
  title : TabTitle
  glossary : SortedMap String String
  deriving DecidableEq

def RoundOverview.of (round : ExploreRound) (delivering : Option String) : RoundOverview :=
  let exploration := round.exploration
  let steps := QuestionStep.of exploration
  let position := Position.of exploration steps delivering
  { -- A round saved before the first turn explained the design has no Design step.
    rail := RailStep.rail (exploration.design.isSome || exploration.conversation.isEmpty)
      steps.length position
    decisions := steps.filterMap (Decision.of exploration)
    earlier := (steps.filter position.passed).filterMap (EarlierQuestion.of round)
    title := .of position
    glossary := exploration.glossary }

end ProgressiveReviewer.Explore
