import ProgressiveReviewer.Explore.Recovery
import Mathlib.Logic.Function.Basic
import ProgressiveReviewer.Explore.Prerequisites

/-! The dialogue between the reviewer and the agent, without how its requests travel: a
machine whose moves are what the operations of a round amount to. Whatever the round
keeps is proved of this machine. -/

namespace ProgressiveReviewer.Explore

open Library

structure Dialogue where
  instanceId : String
  comparison : Comparison
  decided : Decided
  answers : List ReviewerAnswer
  conversation : List ConversationTurn
  outstanding : Option TurnRequest
  retry : Option TurnRequest
  cancelled : List String
  /-- The latest attempt at each request. -/
  sent : String → Option (String × TurnRequest)
  completion : Option ReviewCompletion
  implemented : String → Option (String × ImplementationRequest)

namespace Dialogue

variable (d : Dialogue)

/-- What the conversation decides when its turns are taken in one after the other. -/
def replayed (answers : List ReviewerAnswer) (conversation : List ConversationTurn) : Decided :=
  conversation.foldl (Exploration.replayTurn answers) .nothing

/-- The cancelled answers that the request on its way names. -/
def named : List String := (d.retry.map (·.cancelled)).getD []

/-- The request names this dialogue. -/
def Home (request : TurnRequest) : Prop :=
  request.instanceId = d.instanceId ∧ request.checkpoint = d.comparison.checkpoint

/-- The agenda has the topic once the topics of a turn are in it. -/
def Knows (update : InterviewUpdate) (id : String) : Prop :=
  d.decided.topics.contains id = true ∨ ∃ topic ∈ update.topics, topic.id = id

def Answered (id : String) : Prop := ∃ answer ∈ d.answers, answer.id = id

/-- The turn asked the question, or concluded when there is none. -/
def Asks (question : Option Question) (turn : ConversationTurn) : Prop :=
  match question with
  | some question => turn.update.next = some question
  | none => turn.update.conclusion.isSome = true

/-- The turn an answer replies to. -/
def Answers (answer : ReviewerAnswer) (turn : ConversationTurn) : Prop :=
  turn.update.request = answer.inReplyTo ∧ Asks answer.question turn

/-- What a new answer must satisfy. -/
structure Admits (answer : ReviewerAnswer) : Prop where
  fresh : ∀ old ∈ d.answers, old.id ≠ answer.id
  checkpoint : answer.checkpoint = d.comparison.checkpoint
  context : ∃ turn ∈ d.conversation, Answers answer turn
  option : ∀ option, answer.option = some option →
    ∃ question, answer.question = some question ∧ option ∈ question.choices

/-- What an agenda change must satisfy. -/
structure Attributed (update : InterviewUpdate) (change : AgendaChange) : Prop where
  topic : d.Knows update change.topic
  replacement : ∀ id, change.replacement = some id → d.Knows update id
  answer : ∀ id, change.answer = some id → d.Answered id
  decision : ∀ id, change.decision = some id → d.Answered id

/-- What a turn that follows `answer` must satisfy. -/
structure Checked (answer : Option ReviewerAnswer) (update : InterviewUpdate) : Prop where
  checkpoint : update.checkpoint = d.comparison.checkpoint
  ends : update.next.isSome ≠ update.conclusion.isSome
  interpretation : ∀ interpretation, update.interpretation = some interpretation →
    ∃ decided, answer = some decided ∧ decided.question.isSome = true ∧
      interpretation.answer = decided.id
  prerequisites : ∀ topic ∈ update.topics, ∀ id ∈ topic.prerequisites, d.Knows update id
  next : ∀ question, update.next = some question → d.Knows update question.topic
  agenda : ∀ change ∈ update.agenda, d.Attributed update change

def ask (attempt : String) (request : TurnRequest) : Dialogue :=
  { d with
    cancelled := []
    answers := d.answers ++ request.answer.toList
    outstanding := some request
    retry := some request
    sent := Function.update d.sent request.request (some (attempt, request)) }

def resend (attempt : String) (request : TurnRequest) : Dialogue :=
  { d with
    outstanding := some request
    retry := some request
    sent := Function.update d.sent request.request (some (attempt, request)) }

/-- The first conclusion completes the dialogue. -/
def completed (update : InterviewUpdate) : Option ReviewCompletion :=
  if update.conclusion.isSome ∧ d.completion.isNone
  then some ⟨update.request, d.comparison.checkpoint.checkpoint⟩ else d.completion

def accept (request : TurnRequest) (update : InterviewUpdate) : Dialogue :=
  { d with
    conversation := d.conversation ++ [⟨request.answer.map (·.id), update, none⟩]
    decided := d.decided.absorb update request.answer
    outstanding := none
    retry := none
    completion := d.completed update }

def revise (turn : ConversationTurn) : Dialogue :=
  { d with
    conversation := d.conversation ++ [turn]
    decided := d.decided.absorb turn.update none }

/-- The pending request that carries an answer. -/
def pendingWith (id : String) : Option TurnRequest :=
  (d.outstanding.filter (·.carries id)).or (d.retry.filter (·.carries id))

/-- The request of the first turn that follows an answer. -/
def tookUp (id : String) : Option String :=
  (d.conversation.find? fun turn => turn.answer = some id).map (·.update.request)

/-- Whether a request goes when an answer does. -/
def forgets (id request : String) : Bool :=
  (d.sent request).any (·.2.carries id) ||
    (d.tookUp id).or ((d.pendingWith id).map (·.request)) == some request

/-- Take the latest answer back. -/
def withdraw (id : String) : Dialogue :=
  let conversation := d.conversation.filter fun turn => turn.answer ≠ some id
  let pending := d.pendingWith id
  { d with
    answers := d.answers.dropLast
    outstanding := if pending.isSome then none else d.outstanding
    retry := if pending.isSome then none else d.retry
    conversation := conversation
    decided := if (d.tookUp id).isSome then replayed d.answers.dropLast conversation else d.decided
    cancelled := ((pending.map (·.cancelled)).getD []) ++ d.cancelled ++ [id]
    sent := fun request => if d.forgets id request then none else d.sent request
    completion := d.completion.filter fun completion => !d.forgets id completion.request }

def implement (attempt : String) (request : ImplementationRequest) : Dialogue :=
  { d with implemented := Function.update d.implemented request.delivery (some (attempt, request)) }

end Dialogue

/-- What others learn of a move of the dialogue. -/
inductive Event where
  /-- A new request. -/
  | asked (request : TurnRequest)
  /-- The request that waits for a retry, posted again. -/
  | resent (request : TurnRequest)
  /-- The turn of a request was accepted. -/
  | took (request : TurnRequest) (update : InterviewUpdate)
  /-- The open question has a new version. -/
  | revised (turn : ConversationTurn)
  | retried
  | withdrew (answer : String)
  | implemented
  | quiet

open Dialogue in
/-- The moves of a dialogue. -/
inductive Move (d : Dialogue) : Event → Dialogue → Prop
  | ask {attempt : String} {request : TurnRequest} : d.outstanding = none →
      d.sent request.request = none → d.Home request → request.cancelled = d.named ++ d.cancelled →
      attempt ≠ "" → (∀ answer, request.answer = some answer → d.Admits answer) →
      Move d (.asked request) (d.ask attempt request)
  | resend {attempt : String} {request current : TurnRequest} {previous : String × TurnRequest} :
      d.sent request.request = some previous → d.retry = some current →
      current.request = request.request → d.Home request → attempt ≠ "" →
      previous.2.answer = request.answer →
      (∀ turn ∈ d.conversation, turn.update.request ≠ request.request) →
      Move d (.resent request) (d.resend attempt request)
  | accept {request : TurnRequest} {update : InterviewUpdate} : d.outstanding = some request →
      update.request = request.request → update.instanceId = d.instanceId →
      (∀ turn ∈ d.conversation, turn.update.request ≠ update.request) →
      d.Checked request.answer update → Move d (.took request update) (d.accept request update)
  | revise {turn previous : ConversationTurn} : d.outstanding = none → d.retry = none →
      d.conversation.getLast? = some previous → turn.answer = previous.answer →
      turn.revision.isSome = true → turn.update.instanceId = previous.update.instanceId →
      turn.update.next.isSome = true → turn.update.interpretation = none →
      turn.update.topics = [] → turn.update.agenda = [] →
      (∀ earlier ∈ d.conversation, earlier.update.request ≠ turn.update.request) →
      d.Checked none turn.update → Move d (.revised turn) (d.revise turn)
  | drop : Move d .quiet { d with outstanding := none }
  | fail {error : String} : Move d .quiet { d with
      outstanding := none
      retry := d.retry.map fun retry => { retry with responseError := some error } }
  | retry : d.outstanding = none → Move d .retried { d with outstanding := d.retry }
  | withdraw {answer : ReviewerAnswer} : d.answers.getLast? = some answer →
      (∀ delivery, d.implemented delivery = none) →
      Move d (.withdrew answer.id) (d.withdraw answer.id)
  | implement {attempt : String} {request : ImplementationRequest} : attempt ≠ "" →
      request.instanceId = d.instanceId →
      (∃ turn ∈ d.conversation, turn.update.request = request.conclusion ∧
        turn.update.conclusion.isSome = true) →
      Move d .implemented (d.implement attempt request)

/-- The dialogue of a round. -/
def ExploreRound.dialogue (round : ExploreRound) : Dialogue where
  instanceId := round.exploration.instanceId
  comparison := round.exploration.comparison
  decided := round.exploration.toDecided
  answers := round.exploration.answers
  conversation := round.exploration.conversation
  outstanding := round.exploration.outstanding
  retry := round.exploration.retry
  cancelled := round.exploration.cancelled
  sent := fun id => (round.turns.lookup id).map fun record => (record.attempt, record.request)
  completion := round.completion
  implemented := fun id =>
    (round.implementations.lookup id).map fun record => (record.attempt, record.request)

end ProgressiveReviewer.Explore

/-! What an accepted turn is known to satisfy. -/

namespace ProgressiveReviewer.Explore

open Library

namespace Exploration

variable {exploration : Exploration} {world : World} {update : InterviewUpdate} {u : Unit}

theorem answersTopic_answered {id topic : String} (answers : exploration.answersTopic id topic) :
    ∃ answer ∈ exploration.answers, answer.id = id := by
  obtain ⟨answer, mem, same⟩ := List.any_eq_true.mp answers
  simp only [Bool.and_eq_true, decide_eq_true_eq] at same
  exact ⟨answer, mem, same.1⟩

theorem validateTopics_nodup {ids : List String} {topics : List Topic}
    (passed : exploration.validateTopics world ids topics = .ok u) :
    (topics.map (·.id)).Nodup ∧ ∀ topic ∈ topics, topic.id ∉ ids := by
  induction topics generalizing ids with
  | nil => exact ⟨List.nodup_nil, fun _ mem => absurd mem List.not_mem_nil⟩
  | cons topic rest ih =>
    obtain ⟨_, new, _, _, _, passed⟩ := by
      simpa only [validateTopics, ensure_bind_eq_ok] using passed
    obtain ⟨nodup, apart⟩ := ih passed
    refine ⟨List.nodup_cons.mpr ⟨fun again => ?_, nodup⟩, List.forall_mem_cons.mpr
      ⟨new, fun other mem seen => apart other mem (List.mem_cons_of_mem _ seen)⟩⟩
    obtain ⟨other, mem, same⟩ := List.mem_map.mp again
    exact apart other mem (same ▸ List.mem_cons_self)

/-- The agenda as a turn sends it, with nothing decided. -/
def merged (exploration : Exploration) (sent : List Topic) : SortedMap String Topic :=
  sent.foldl (fun kept topic => kept.insert topic.id topic) exploration.topics

theorem validateSentTopics_eq {topics after : SortedMap String Topic} {sent : List Topic}
    (passed : exploration.validateSentTopics topics sent = .ok after) :
    after = sent.foldl (fun kept topic => kept.insert topic.id topic) topics := by
  induction sent generalizing topics with
  | nil => exact (Except.ok.inj passed).symm
  | cons topic rest ih => exact ih (ensure_bind_eq_ok.mp passed).2

theorem contains_foldl_insert {topics : SortedMap String Topic} {sent : List Topic} {id : String} :
    (sent.foldl (fun kept topic => kept.insert topic.id topic) topics).contains id = true ↔
      topics.contains id = true ∨ ∃ topic ∈ sent, topic.id = id := by
  induction sent generalizing topics with
  | nil => simp
  | cons topic rest ih =>
    rw [List.foldl_cons, ih, SortedMap.contains_insert]
    simp only [List.mem_cons, exists_eq_or_imp]
    tauto

theorem lookup_foldl_insert {topics : SortedMap String Topic} {sent : List Topic} {topic : Topic}
    (nodup : (sent.map (·.id)).Nodup) (mem : topic ∈ sent) :
    (sent.foldl (fun kept topic => kept.insert topic.id topic) topics).lookup topic.id =
      some topic := by
  induction sent generalizing topics with
  | nil => cases mem
  | cons first rest ih =>
    obtain ⟨apart, nodup⟩ := List.nodup_cons.mp nodup
    rcases List.mem_cons.mp mem with rfl | mem
    · have kept : ∀ (others : List Topic) (kept : SortedMap String Topic),
          (∀ other ∈ others, other.id ≠ topic.id) →
          (others.foldl (fun kept topic => kept.insert topic.id topic) kept).lookup topic.id =
            kept.lookup topic.id := by
        intro others
        induction others with
        | nil => exact fun _ _ => rfl
        | cons other others ih =>
          intro kept differ
          rw [List.foldl_cons, ih _ fun o mem => differ o (List.mem_cons_of_mem _ mem),
            SortedMap.lookup_insert, if_neg (differ other List.mem_cons_self)]
      rw [List.foldl_cons, kept _ _ fun other mem same =>
        apart (List.mem_map.mpr ⟨other, mem, same⟩), SortedMap.lookup_insert_self]
    · exact ih nodup mem

/-- The checks that one agenda change passed. -/
structure ChangePassed (exploration : Exploration) (topics : SortedMap String Topic)
    (change : AgendaChange) : Prop where
  topic : topics.contains change.topic = true
  replacement : ∀ id, change.replacement = some id → topics.contains id = true
  answer : ∀ id, change.answer = some id → ∃ answer ∈ exploration.answers, answer.id = id
  decision : ∀ id, change.decision = some id → ∃ answer ∈ exploration.answers, answer.id = id

theorem validateReplacement_known {topics : SortedMap String Topic} {agenda : List AgendaChange}
    {change : AgendaChange} (passed : change.validateReplacement exploration topics agenda = .ok u)
    {id : String} (replaced : change.replacement = some id) : topics.contains id = true := by
  unfold AgendaChange.validateReplacement at passed
  split at passed
  · rw [replaced] at passed
    exact (ensure_bind_eq_ok.mp passed).1.2
  · have none := ensure_eq_ok.mp passed
    rw [replaced] at none
    cases none

theorem validateReason_answered {change : AgendaChange}
    (passed : change.validateReason exploration world = .ok u) {id : String}
    (answered : change.answer = some id) : ∃ answer ∈ exploration.answers, answer.id = id := by
  obtain ⟨_, known⟩ := ensure_bind_eq_ok.mp passed
  have known := (Bool.and_eq_true _ _).mp (ensure_eq_ok.mp known)
  rw [answered] at known
  simpa using known.1

theorem validateDecision_answered {change : AgendaChange}
    (passed : change.validateDecision exploration = .ok u) {id : String}
    (decided : change.decision = some id) : ∃ answer ∈ exploration.answers, answer.id = id := by
  unfold AgendaChange.validateDecision at passed
  rw [decided] at passed
  obtain ⟨attributed, _⟩ := ensure_bind_eq_ok.mp passed
  exact answersTopic_answered ((Bool.and_eq_true _ _).mp attributed).2

theorem validateChanges_passed {topics : SortedMap String Topic} {agenda : List AgendaChange}
    {changed : List String} {changes : List AgendaChange}
    (passed : exploration.validateChanges world topics agenda changed changes = .ok u) :
    ∀ change ∈ changes, ChangePassed exploration topics change := by
  induction changes generalizing changed with
  | nil => exact fun _ mem => absurd mem List.not_mem_nil
  | cons change rest ih =>
    obtain ⟨topic, _, passed⟩ := by
      simpa only [validateChanges, ensure_bind_eq_ok] using passed
    obtain ⟨_, reason, passed⟩ := except_bind_eq_ok.mp passed
    obtain ⟨_, replacement, passed⟩ := except_bind_eq_ok.mp passed
    obtain ⟨_, decision, passed⟩ := except_bind_eq_ok.mp passed
    exact List.forall_mem_cons.mpr ⟨⟨topic, fun _ => validateReplacement_known replacement,
      fun _ => validateReason_answered reason, fun _ => validateDecision_answered decision⟩,
      ih passed⟩

theorem validateInterpretation_checked (passed : exploration.validateInterpretation update = .ok u)
    {interpretation : Interpretation} (given : update.interpretation = some interpretation) :
    ∃ answer, exploration.outstandingAnswer = some answer ∧ answer.question.isSome = true ∧
      interpretation.answer = answer.id := by
  unfold validateInterpretation at passed
  rw [given] at passed
  split at passed
  · cases ‹some interpretation = none›
  · cases ‹some interpretation = none›
  · next answer _ outstanding same =>
    obtain ⟨question, exact, _⟩ := by simpa only [ensure_bind_eq_ok] using passed
    cases same
    exact ⟨answer, outstanding, question, exact.1⟩
  · cases passed

theorem validateQuestion_known {question : Question}
    (passed : exploration.validateQuestion world question update = .ok u) :
    exploration.topics.contains question.topic = true ∨
      ∃ topic ∈ update.topics, topic.id = question.topic := by
  obtain ⟨_, known, _⟩ := by simpa only [validateQuestion, ensure_bind_eq_ok] using passed
  simpa using known

/-- The checks that an accepted turn passed. -/
structure Valid (world : World) (exploration : Exploration) (update : InterviewUpdate) : Prop where
  checkpoint : update.checkpoint = exploration.comparison.checkpoint
  ends : update.next.isSome ≠ update.conclusion.isSome
  drawingBoard : exploration.validateDrawingBoard update = .ok ()
  interpretation : exploration.validateInterpretation update = .ok ()
  conclusion : ∀ conclusion, update.conclusion = some conclusion →
    conclusion.validate world exploration.comparison = .ok ()
  design : exploration.validateDesign update = .ok ()
  reply : exploration.validateReply world update = .ok ()
  topics : exploration.validateTopics world [] update.topics = .ok ()
  glossary : exploration.validateGlossary world update.glossary = .ok ()
  agenda : exploration.validateAgenda world update = .ok ()
  marks : exploration.validateMarks world update = .ok ()
  challenger : exploration.validateChallengerProposals update = .ok ()
  next : ∀ question, update.next = some question →
    exploration.validateQuestion world question update = .ok ()

theorem validate_eq_ok : exploration.validate world update = .ok u ↔
    Valid world exploration update := by
  have optional : ∀ {α : Type} {check : α → Except String Unit} {given : Option α},
      given.forM check = .ok u ↔ ∀ value, given = some value → check value = .ok () := by
    intro α check given
    cases given with
    | none => exact ⟨fun _ _ absent => (nomatch absent), fun _ => rfl⟩
    | some value => exact ⟨fun passed _ same => Option.some.inj same ▸ passed, fun passed => passed _ rfl⟩
  simp only [validate, unit_bind_eq_ok, ensure_eq_ok, optional]
  constructor
  · rintro ⟨checkpoint, ends, drawingBoard, interpretation, conclusion, design, reply, topics, glossary,
      agenda, marks, challenger, next⟩
    exact ⟨checkpoint, ends, drawingBoard, interpretation, conclusion, design, reply, topics, glossary,
      agenda, marks, challenger, next⟩
  · intro valid
    exact ⟨valid.checkpoint, valid.ends, valid.drawingBoard, valid.interpretation, valid.conclusion,
      valid.design, valid.reply, valid.topics, valid.glossary, valid.agenda, valid.marks,
      valid.challenger, valid.next⟩

theorem validateAgenda_eq_ok : exploration.validateAgenda world update = .ok () ↔
    (∃ topics, exploration.validateSentTopics exploration.topics update.topics = .ok topics) ∧
    ((exploration.merged update.topics).values.forM fun topic =>
      topic.validatePrerequisites (exploration.merged update.topics)) = .ok () ∧
    exploration.validateChanges world (exploration.merged update.topics) update.agenda []
      update.agenda = .ok () := by
  rw [validateAgenda, except_bind_eq_ok]
  simp only [unit_bind_eq_ok]
  constructor
  · rintro ⟨topics, sent, passed⟩
    obtain rfl := validateSentTopics_eq sent
    exact ⟨⟨_, sent⟩, passed⟩
  · rintro ⟨⟨topics, sent⟩, passed⟩
    refine ⟨topics, sent, ?_⟩
    obtain rfl := validateSentTopics_eq sent
    exact passed

end Exploration

open Exploration in
/-- An accepted turn is checked against the answer the agent works on. -/
theorem ExploreRound.validate_checked {round : ExploreRound} {world : World}
    {update : InterviewUpdate} {u : Unit} (passed : round.exploration.validate world update = .ok u) :
    round.dialogue.Checked round.exploration.outstandingAnswer update := by
  have passed := validate_eq_ok.mp passed
  have agenda := (validateAgenda_eq_ok.mp passed.agenda).2
  have known : ∀ id, (round.exploration.merged update.topics).contains id = true →
      round.dialogue.Knows update id := fun _ => contains_foldl_insert.mp
  exact {
    checkpoint := passed.checkpoint
    ends := passed.ends
    interpretation := fun _ given => validateInterpretation_checked passed.interpretation given
    prerequisites := fun topic mem id required => by
      have filed : (round.exploration.merged update.topics).lookup topic.id = some topic :=
        lookup_foldl_insert (validateTopics_nodup passed.topics).1 mem
      have passed := forM_eq_ok.mp agenda.1 topic (SortedMap.mem_values.mpr ⟨_, filed⟩)
      have fine := Topic.validatePrerequisites_eq_ok.mp passed id required id .refl
      exact known id (Topic.requirements_isSome ▸ fine.1)
    next := fun next asked => validateQuestion_known (passed.next next asked)
    agenda := fun change mem =>
      have passed := validateChanges_passed agenda.2 change mem
      ⟨known _ passed.topic, fun id same => known id (passed.replacement id same),
        passed.answer, passed.decision⟩ }

end ProgressiveReviewer.Explore
