import Mathlib.Data.List.Find
import ProgressiveReviewer.Explore.Grounding

/-! What is decided about a topic: it follows from the interpreted answers of the reviewer,
whatever the agent says of it (`absorb` of `review-explore/src/interview.rs`,
`review-explore/src/cancel.rs`). -/

namespace ProgressiveReviewer.Explore

open Library

/-- The status that the latest interpretation of an answer on the topic gives. -/
def decidedStatus (answers : List ReviewerAnswer) (interpretations : List Interpretation)
    (id : String) : Option TopicStatus :=
  (interpretations.reverse.find? fun interpretation => answers.any fun answer =>
    answer.id = interpretation.answer && answer.question.any (·.topic = id)).map (·.status)

/-- The status of a topic, open when the agenda does not have it. -/
def statusOf (topics : SortedMap String Topic) (id : String) : TopicStatus :=
  ((topics.lookup id).map (·.status)).getD .«open»

/-- The status that a turn gives to a topic. -/
def givenStatus (interpretation : Option Interpretation) (answer : Option ReviewerAnswer)
    (id : String) : Option TopicStatus :=
  match interpretation, answer.bind (·.question) with
  | some interpretation, some question =>
    if question.topic = id then some interpretation.status else none
  | _, _ => none

namespace Decided

variable {decided : Decided} {update : InterviewUpdate} {answer : Option ReviewerAnswer}
variable {sent : List Topic} {id : String}

theorem statusOf_takeTopics : statusOf (decided.takeTopics sent) id = statusOf decided.topics id := by
  rw [statusOf, status_takeTopics, statusOf]
  cases decided.topics.lookup id with
  | some topic => rfl
  | none => by_cases sends : sent.any (·.id = id) <;> simp [sends]

theorem lookup_settled {interpretation : Option Interpretation} {topics : SortedMap String Topic} :
    ((settled interpretation answer topics).lookup id).map (·.status) =
      (topics.lookup id).map fun topic => (givenStatus interpretation answer id).getD topic.status := by
  unfold settled givenStatus
  cases interpretation with
  | none => rfl
  | some interpretation =>
    cases asked : answer.bind (·.question) with
    | none => rfl
    | some question =>
      rw [SortedMap.lookup_modify]
      dsimp only
      split_ifs with here
      · rw [here, Option.map_map]
        rfl
      · rfl

/-- A turn changes the status of one topic at most. -/
theorem statusOf_absorb_of_none (none : givenStatus update.interpretation answer id = none) :
    statusOf (decided.absorb update answer).topics id = statusOf decided.topics id := by
  have taken : statusOf (decided.takeTopics update.topics) id = statusOf decided.topics id :=
    statusOf_takeTopics
  rw [← taken, statusOf, absorb_topics, lookup_settled, none]
  rfl

theorem statusOf_absorb (known : ∀ question, answer.bind (·.question) = some question →
      decided.topics.contains question.topic = true) :
    statusOf (decided.absorb update answer).topics id =
      (givenStatus update.interpretation answer id).getD (statusOf decided.topics id) := by
  cases given : givenStatus update.interpretation answer id with
  | none => exact statusOf_absorb_of_none given
  | some status =>
    have held : decided.topics.contains id = true := by
      unfold givenStatus at given
      split at given
      · next question _ asked =>
        split_ifs at given with here
        exact here ▸ known question asked
      · cases given
    obtain ⟨topic, found⟩ := SortedMap.contains_iff.mp (contains_takeTopics.mpr (.inl held))
    rw [statusOf, absorb_topics, lookup_settled, found, given]
    rfl

end Decided

open Dialogue

section decidedStatus

variable {answers : List ReviewerAnswer} {interpretations : List Interpretation} {id : String}

theorem any_answer (nodup : (answers.map (·.id)).Nodup) {answer : ReviewerAnswer}
    (mem : answer ∈ answers) {holds : ReviewerAnswer → Bool} :
    (answers.any fun other => other.id = answer.id && holds other) = holds answer := by
  rw [Bool.eq_iff_iff, List.any_eq_true]
  constructor
  · rintro ⟨other, held, same⟩
    simp only [Bool.and_eq_true, decide_eq_true_eq] at same
    exact List.inj_on_of_nodup_map nodup held mem same.1 ▸ same.2
  · exact fun here => ⟨answer, mem, by simpa using here⟩

/-- A new answer decides nothing until it is interpreted. -/
theorem decidedStatus_append {answer : ReviewerAnswer}
    (fresh : ∀ interpretation ∈ interpretations, answer.id ≠ interpretation.answer) :
    decidedStatus (answers ++ [answer]) interpretations id =
      decidedStatus answers interpretations id := by
  unfold decidedStatus
  refine congrArg (Option.map _) ?_
  refine List.find?_congr fun interpretation mem => ?_
  simp [fresh interpretation (List.mem_reverse.mp mem)]

theorem decidedStatus_interpret (nodup : (answers.map (·.id)).Nodup) {answer : Option ReviewerAnswer}
    {interpretation : Option Interpretation} (held : ∀ decided, answer = some decided → decided ∈ answers)
    (interprets : ∀ given, interpretation = some given → ∃ decided, answer = some decided ∧
      decided.question.isSome = true ∧ given.answer = decided.id) :
    decidedStatus answers
        (interpretations ++ (interpretation.filter fun _ => answer.isSome).toList) id =
      (givenStatus interpretation answer id).or (decidedStatus answers interpretations id) := by
  cases interpretation with
  | none => simp [givenStatus]
  | some given =>
    obtain ⟨decided, rfl, asked, same⟩ := interprets given rfl
    obtain ⟨question, asked⟩ := Option.isSome_iff_exists.mp asked
    have here : (answers.any fun answer => answer.id = given.answer &&
        answer.question.any (·.topic = id)) = decide (question.topic = id) := by
      rw [same, any_answer nodup (held decided rfl), asked]
      rfl
    simp only [decidedStatus, givenStatus, Option.filter_some, Option.isSome_some, if_true,
      Option.toList_some, List.reverse_append, List.reverse_singleton, List.singleton_append,
      List.find?_cons, here, Option.bind_some, asked]
    by_cases topic : question.topic = id <;> simp [topic]

end decidedStatus

theorem interpretations_append {answers : List ReviewerAnswer}
    {conversation turns : List ConversationTurn} :
    (replayed answers conversation).interpretations <+:
      (replayed answers (conversation ++ turns)).interpretations := by
  induction turns using List.reverseRecOn with
  | nil => rw [List.append_nil]
  | append_singleton turns turn ih =>
    rw [← List.append_assoc, replayed_concat, Decided.absorb_interpretations]
    exact ih.trans (List.prefix_append _ _)

/-- What the answers and turns of a dialogue keep about its topics. -/
structure Deciding (answers : List ReviewerAnswer) (conversation : List ConversationTurn) : Prop where
  nodup : (answers.map (·.id)).Nodup
  attributed : ∀ interpretation ∈ (replayed answers conversation).interpretations,
    ∃ answer ∈ answers, answer.id = interpretation.answer
  asked : ∀ turn ∈ conversation, ∀ question, turn.update.next = some question →
    (replayed answers conversation).topics.contains question.topic = true
  topics : ∀ answer ∈ answers, ∀ question, answer.question = some question →
    (replayed answers conversation).topics.contains question.topic = true
  status : ∀ id, statusOf (replayed answers conversation).topics id =
    (decidedStatus answers (replayed answers conversation).interpretations id).getD .«open»

namespace Deciding

variable {answers : List ReviewerAnswer} {conversation : List ConversationTurn}

theorem turn (deciding : Deciding answers conversation) {turn : ConversationTurn}
    (interprets : ∀ given, turn.update.interpretation = some given →
      ∃ decided, answerOf answers turn = some decided ∧ decided.question.isSome = true ∧
        given.answer = decided.id)
    (next : ∀ question, turn.update.next = some question →
      (replayed answers conversation).topics.contains question.topic = true ∨
        ∃ topic ∈ turn.update.topics, topic.id = question.topic) :
    Deciding answers (conversation ++ [turn]) := by
  have grows : ∀ id, (replayed answers conversation).topics.contains id = true →
      (replayed answers (conversation ++ [turn])).topics.contains id = true := fun id held => by
    rw [replayed_concat]
    exact Decided.contains_absorb.mpr (.inl held)
  have held : ∀ decided, answerOf answers turn = some decided → decided ∈ answers := by
    intro decided found
    obtain ⟨id, _, found⟩ := Option.bind_eq_some_iff.mp found
    exact Keyed.mem_of_find found
  refine ⟨deciding.nodup, ?_, ?_, fun answer mem question asked =>
    grows _ (deciding.topics answer mem question asked), fun id => ?_⟩
  · rw [replayed_concat, Decided.absorb_interpretations]
    refine List.forall_mem_append.mpr ⟨deciding.attributed, fun given mem => ?_⟩
    have given := (Option.filter_eq_some_iff.mp (Option.mem_toList.mp mem)).1
    obtain ⟨decided, found, _, same⟩ := interprets _ given
    exact ⟨decided, held decided found, same.symm⟩
  · refine List.forall_mem_append.mpr ⟨fun turn mem question asked =>
      grows _ (deciding.asked turn mem question asked), List.forall_mem_singleton.mpr ?_⟩
    intro question asked
    rw [replayed_concat]
    exact Decided.contains_absorb.mpr (next question asked)
  · have known : ∀ question, (answerOf answers turn).bind (·.question) = some question →
        (replayed answers conversation).topics.contains question.topic = true := by
      intro question asked
      obtain ⟨decided, found, asked⟩ := Option.bind_eq_some_iff.mp asked
      exact deciding.topics decided (held decided found) question asked
    rw [replayed_concat, Decided.statusOf_absorb known, Decided.absorb_interpretations,
      decidedStatus_interpret deciding.nodup held interprets, deciding.status]
    cases givenStatus turn.update.interpretation (answerOf answers turn) id <;> rfl

theorem answer (deciding : Deciding answers conversation) {answer : ReviewerAnswer}
    (fresh : ∀ old ∈ answers, old.id ≠ answer.id)
    (same : replayed (answers ++ [answer]) conversation = replayed answers conversation)
    (context : ∃ turn ∈ conversation, Answers answer turn) :
    Deciding (answers ++ [answer]) conversation := by
  have unheard : ∀ interpretation ∈ (replayed answers conversation).interpretations,
      answer.id ≠ interpretation.answer := fun interpretation mem own => by
    obtain ⟨old, held, given⟩ := deciding.attributed interpretation mem
    exact fresh old held (given.trans own.symm)
  constructor
  · simpa [List.nodup_append, deciding.nodup] using fresh
  · rw [same]
    intro interpretation mem
    obtain ⟨old, held, given⟩ := deciding.attributed interpretation mem
    exact ⟨old, List.mem_append_left _ held, given⟩
  · rw [same]
    exact deciding.asked
  · rw [same]
    refine List.forall_mem_append.mpr ⟨deciding.topics, List.forall_mem_singleton.mpr ?_⟩
    intro question given
    obtain ⟨turn, mem, _, asks⟩ := context
    rw [given] at asks
    exact deciding.asked turn mem question asks
  · rw [same]
    intro id
    rw [decidedStatus_append unheard]
    exact deciding.status id

end Deciding

namespace Grown

variable {comparison : Comparison} {answers : List ReviewerAnswer}
variable {conversation : List ConversationTurn} {floor : Nat}

theorem replayed_append (grown : Grown comparison answers conversation floor)
    (nodup : (answers.map (·.id)).Nodup) {more : List ReviewerAnswer} :
    replayed (answers ++ more) conversation = replayed answers conversation := by
  refine replayed_congr fun turn mem => ?_
  unfold answerOf
  cases follows : turn.answer with
  | none => rfl
  | some id =>
    obtain ⟨answer, held, rfl⟩ := grown.followed turn mem id follows
    simp only [Option.bind_some, Keyed.find_append, Keyed.find_self nodup held, Option.some_or]

theorem passed_checked {answer : Option ReviewerAnswer} {update : InterviewUpdate}
    (passed : Passed comparison answers conversation answer update) :
    (∀ given, update.interpretation = some given → ∃ decided, answer = some decided ∧
      decided.question.isSome = true ∧ given.answer = decided.id) ∧
    ∀ question, update.next = some question →
      (replayed answers conversation).topics.contains question.topic = true ∨
        ∃ topic ∈ update.topics, topic.id = question.topic := by
  obtain ⟨exploration, world, _, _, _, decided, rfl, valid⟩ := passed
  have valid := Exploration.validate_eq_ok.mp valid
  exact ⟨fun _ => Exploration.validateInterpretation_checked valid.interpretation,
    fun question asked => decided ▸ Exploration.validateQuestion_known (valid.next question asked)⟩

theorem deciding (grown : Grown comparison answers conversation floor) :
    Deciding answers conversation := by
  induction grown with
  | start =>
    exact ⟨List.nodup_nil, fun _ mem => absurd mem List.not_mem_nil,
      fun _ mem => absurd mem List.not_mem_nil, fun _ mem => absurd mem List.not_mem_nil, fun _ => rfl⟩
  | answer grown posted ih =>
    exact ih.answer posted.fresh (grown.replayed_append ih.nodup) posted.context
  | @take answers conversation floor answer turn _ last follows passed ih =>
    have followed : answerOf answers turn = some answer := by
      rw [answerOf, follows]
      exact Keyed.find_self ih.nodup (List.mem_of_getLast? last)
    exact ih.turn (followed ▸ (passed_checked passed).1) (passed_checked passed).2
  | kickoff _ _ passed ih =>
    refine ih.turn (fun given interprets => ?_) (passed_checked passed).2
    obtain ⟨_, none, _⟩ := (passed_checked passed).1 given interprets
    cases none
  | revise _ revised ih =>
    refine ih.turn (fun given interprets => ?_) fun question asked => .inl (revised.next question asked)
    rw [revised.interpretation] at interprets
    cases interprets

end Grown

/-- A turn that says other statuses of its topics. -/
def InterviewUpdate.restated (status : Topic → TopicStatus) (update : InterviewUpdate) :
    InterviewUpdate :=
  { update with topics := update.topics.map fun topic => topic.withStatus (status topic) }

namespace Exploration

variable {exploration : Exploration} {world : World} {update : InterviewUpdate}
variable {status : Topic → TopicStatus}

theorem absorb_restated {decided : Decided} {answer : Option ReviewerAnswer} :
    decided.absorb (update.restated status) answer = decided.absorb update answer := by
  have taken : ∀ decided : Decided, (update.restated status).topics.foldl Decided.takeTopic decided =
      update.topics.foldl Decided.takeTopic decided := fun decided => List.foldl_map ..
  simp only [Decided.absorb, taken]
  rfl

theorem validateTopics_restated {ids : List String} {topics : List Topic} :
    exploration.validateTopics world ids (topics.map fun topic => topic.withStatus (status topic)) =
      exploration.validateTopics world ids topics := by
  induction topics generalizing ids with
  | nil => rfl
  | cons topic rest ih =>
    simp only [List.map_cons, validateTopics, ih]
    rfl

theorem validateQuestion_restated {question : Question} :
    exploration.validateQuestion world question (update.restated status) =
      exploration.validateQuestion world question update := by
  have named : ((update.restated status).topics.any fun topic => topic.id = question.topic) =
      update.topics.any fun topic => topic.id = question.topic := by
    simp [InterviewUpdate.restated, Function.comp_def, Topic.withStatus]
  simp only [validateQuestion, validateLifecycle, questionTopicStatus, named]
  rfl

theorem validateSentTopics_restated {topics other : SortedMap String Topic} {sent : List Topic} :
    (∃ after, exploration.validateSentTopics other
      (sent.map fun topic => topic.withStatus (status topic)) = .ok after) ↔
    ∃ after, exploration.validateSentTopics topics sent = .ok after := by
  induction sent generalizing topics other with
  | nil => exact ⟨fun _ => ⟨topics, rfl⟩, fun _ => ⟨other, rfl⟩⟩
  | cons topic rest ih =>
    simp only [List.map_cons, validateSentTopics, ensure_bind_eq_ok, exists_and_left]
    exact and_congr_right fun _ => ih

theorem validateChanges_congr {topics other : SortedMap String Topic} {agenda : List AgendaChange}
    {changed : List String} {changes : List AgendaChange}
    (same : ∀ id, topics.contains id = other.contains id) :
    exploration.validateChanges world topics agenda changed changes =
      exploration.validateChanges world other agenda changed changes := by
  induction changes generalizing changed with
  | nil => rfl
  | cons change rest ih =>
    simp only [validateChanges, AgendaChange.validateReplacement, same, ih]

theorem validateAgenda_restated
    (keyed : ∀ id topic, exploration.topics.lookup id = some topic → topic.id = id) :
    exploration.validateAgenda world (update.restated status) = .ok () ↔
      exploration.validateAgenda world update = .ok () := by
  have required : requirements (exploration.merged (update.restated status).topics) =
      requirements (exploration.merged update.topics) := by
    have absorbed : requirements (exploration.toDecided.absorb update none).topics =
        requirements (exploration.merged update.topics) := requirements_absorb
    rw [← absorbed, ← absorb_restated, requirements_absorb]
  have known : ∀ id, (exploration.merged (update.restated status).topics).contains id =
      (exploration.merged update.topics).contains id := fun id => by
    rw [← Topic.requirements_isSome, required, Topic.requirements_isSome]
  have sent : (∃ after, exploration.validateSentTopics exploration.topics
        (update.restated status).topics = .ok after) ↔
      ∃ after, exploration.validateSentTopics exploration.topics update.topics = .ok after :=
    validateSentTopics_restated
  rw [validateAgenda_eq_ok, validateAgenda_eq_ok, sent, forM_merged keyed, forM_merged keyed, required,
    validateChanges_congr known]
  rfl

/-- The checks do not look at the statuses that a turn says. -/
theorem validate_restated
    (keyed : ∀ id topic, exploration.topics.lookup id = some topic → topic.id = id) :
    exploration.validate world (update.restated status) = .ok () ↔
      exploration.validate world update = .ok () := by
  rw [validate_eq_ok, validate_eq_ok]
  constructor
  · intro valid
    exact { valid with
      topics := validateTopics_restated ▸ valid.topics
      agenda := (validateAgenda_restated keyed).mp valid.agenda
      next := fun question asked => validateQuestion_restated ▸ valid.next question asked }
  · intro valid
    exact { valid with
      topics := validateTopics_restated.trans valid.topics
      agenda := (validateAgenda_restated keyed).mpr valid.agenda
      next := fun question asked => validateQuestion_restated.trans (valid.next question asked) }

end Exploration

namespace ExploreRound

variable {round changed : ExploreRound} {floor : Nat}

theorem status_of_growing (coherent : round.dialogue.Coherent) (growing : round.dialogue.Growing floor)
    {id : String} {topic : Topic} (found : round.exploration.topics.lookup id = some topic) :
    topic.status = (decidedStatus round.exploration.answers round.exploration.interpretations id).getD
      .«open» := by
  have decided : round.exploration.toDecided =
      replayed round.exploration.answers round.exploration.conversation := coherent.decided
  have status := growing.grown.deciding.status id
  have held : statusOf round.exploration.topics id = topic.status := by rw [statusOf, found]; rfl
  rw [← held]
  exact decided ▸ status

theorem submitted_status {world : World} {now : Nat} {diverged : List String}
    {update : InterviewUpdate}
    (ran : round.submitted world now diverged update = .ok (true, changed)) {id : String}
    (differs : statusOf changed.exploration.topics id ≠ statusOf round.exploration.topics id) :
    ∃ answer question, round.exploration.outstandingAnswer = some answer ∧
      answer.question = some question ∧ question.topic = id := by
  rcases submitted_moves ran with ⟨absent, _⟩ | ⟨_, request, outstanding, moved⟩
  · cases absent
  have decided : changed.exploration.toDecided =
      round.exploration.toDecided.absorb update request.answer := congrArg Dialogue.decided moved.took
  have given : givenStatus update.interpretation request.answer id ≠ none := fun none => by
    have topics : changed.exploration.topics =
        (round.exploration.toDecided.absorb update request.answer).topics := congrArg _ decided
    exact differs (topics ▸ Decided.statusOf_absorb_of_none none)
  unfold givenStatus at given
  split at given
  · next question _ asked =>
    obtain ⟨answer, held, asked⟩ := Option.bind_eq_some_iff.mp asked
    split_ifs at given with here
    · refine ⟨answer, question, ?_, asked, here⟩
      rw [Exploration.outstandingAnswer, outstanding]
      exact held
    · exact absurd rfl given
  · exact absurd rfl given

/-- Taking answers back leaves the first interpretations. -/
theorem interpretations_prefix (coherent : round.dialogue.Coherent)
    (later : changed.dialogue.Coherent) (growing : changed.dialogue.Growing floor)
    (answers : changed.exploration.answers <+: round.exploration.answers)
    (conversation : changed.exploration.conversation <+: round.exploration.conversation) :
    changed.exploration.interpretations <+: round.exploration.interpretations := by
  have before : round.exploration.toDecided =
      replayed round.exploration.answers round.exploration.conversation := coherent.decided
  have after : changed.exploration.toDecided =
      replayed changed.exploration.answers changed.exploration.conversation := later.decided
  have grown := growing.grown
  obtain ⟨more, answers⟩ := answers
  obtain ⟨turns, conversation⟩ := conversation
  have kept : replayed (changed.exploration.answers ++ more) changed.exploration.conversation =
      replayed changed.exploration.answers changed.exploration.conversation :=
    grown.replayed_append grown.deciding.nodup
  rw [before, after, ← answers, ← conversation, ← kept]
  exact interpretations_append

end ExploreRound

namespace Openings

variable {start : ExploreRound}

end Openings

namespace Sample

open ExploreRound (step Fresh)

/-- A turn that interprets an answer and concludes. -/
def interpreting (request answer : String) : InterviewUpdate :=
  { closing request with interpretation := some ⟨answer, .accepted, "Recap", []⟩ }

/-- The first answer accepts its topic. -/
def accepted : Openings :=
  [post (request "kickoff" none []), submit (first "why" [topic]), reply,
    submit (interpreting "reply" "first")].foldl Openings.step (Openings.new opened)

def asksOther : Question := { question "what" with topic := "other" }

/-- The turn of a second opening request asks about a topic that an answer brought, and
stays when the answer goes. -/
def forgotten : ExploreRound :=
  [reply, submit (asking "reply" "how" [other]), post (request "again" none []),
    submit { asking "again" "what" [] with next := some asksOther, design := some design },
    .cancelAnswersFrom "first",
    post (request "third" (some (answer "second" (some asksOther) "again")) ["first"]),
    submit (interpreting "third" "second"),
    post (request "fourth" (some (answer "message" none "third")) []),
    submit { closing "fourth" with topics := [other] }].foldl step waiting

end Sample

end ProgressiveReviewer.Explore
