import ProgressiveReviewer.Explore.Statuses

/-! A saved round loads again: what loading checks holds after every operation. -/

namespace ProgressiveReviewer.Explore

open Library Dialogue

/-- A turn of the conversation sent the topic. -/
def Sends (conversation : List ConversationTurn) (id : String) : Prop :=
  ∃ turn ∈ conversation, ∃ topic ∈ turn.update.topics, topic.id = id

/-- What the turns and answers of a dialogue keep of the checks that they passed. -/
structure Kept (comparison : Comparison) (answers : List ReviewerAnswer)
    (conversation : List ConversationTurn) : Prop where
  checkpoints : ∀ turn ∈ conversation, turn.update.checkpoint = comparison.checkpoint
  prerequisites : ∀ turn ∈ conversation, ∀ topic ∈ turn.update.topics, ∀ id ∈ topic.prerequisites,
    Sends conversation id
  agenda : ∀ turn ∈ conversation, ∀ change ∈ turn.update.agenda,
    Sends conversation change.topic ∧
    (∀ id, change.replacement = some id → Sends conversation id) ∧
    (∀ id, change.answer = some id → ∃ answer ∈ answers, answer.id = id) ∧
    ∀ id, change.decision = some id → ∃ answer ∈ answers, answer.id = id
  answers : ∀ answer ∈ answers, answer.checkpoint = comparison.checkpoint ∧
    (∃ turn ∈ conversation, Answers answer turn) ∧
    ∀ option, answer.option = some option →
      ∃ question, answer.question = some question ∧ option ∈ question.choices

theorem Sends.append {conversation more : List ConversationTurn} {id : String}
    (sends : Sends conversation id) : Sends (conversation ++ more) id := by
  obtain ⟨turn, mem, sent⟩ := sends
  exact ⟨turn, List.mem_append_left _ mem, sent⟩

section Turns

variable {comparison : Comparison} {answers : List ReviewerAnswer}
variable {conversation : List ConversationTurn}

theorem Passed.checked {answer : Option ReviewerAnswer} {update : InterviewUpdate}
    (passed : Passed comparison answers conversation answer update) :
    ∃ d : Dialogue, d.comparison = comparison ∧ d.answers = answers ∧
      d.decided = replayed answers conversation ∧ d.Checked answer update := by
  obtain ⟨exploration, world, rfl, rfl, rfl, decided, request, valid⟩ := passed
  have checked : (ExploreRound.new exploration).dialogue.Checked answer update :=
    request ▸ ExploreRound.validate_checked valid
  exact ⟨(ExploreRound.new exploration).dialogue, rfl, rfl, decided, checked⟩

/-- A turn that passed its checks. -/
theorem Kept.passed (kept : Kept comparison answers conversation) {answer : Option ReviewerAnswer}
    {turn : ConversationTurn} (passed : Passed comparison answers conversation answer turn.update) :
    Kept comparison answers (conversation ++ [turn]) := by
  obtain ⟨d, rfl, rfl, decided, checked⟩ := passed.checked
  have known (id : String) (knows : d.Knows turn.update id) : Sends (conversation ++ [turn]) id := by
    rcases knows with held | ⟨topic, mem, same⟩
    · exact Sends.append (contains_replayed.mp (decided ▸ held))
    · exact ⟨turn, by simp, topic, mem, same⟩
  constructor
  · exact List.forall_mem_append.mpr ⟨kept.checkpoints,
      List.forall_mem_singleton.mpr checked.checkpoint⟩
  · refine List.forall_mem_append.mpr ⟨fun turn mem topic sent id required =>
      (kept.prerequisites turn mem topic sent id required).append, List.forall_mem_singleton.mpr ?_⟩
    exact fun topic sent id required => known id (checked.prerequisites topic sent id required)
  · refine List.forall_mem_append.mpr ⟨fun turn mem change changes => ?_,
      List.forall_mem_singleton.mpr fun change changes => ?_⟩
    · obtain ⟨topic, replacement, attributed⟩ := kept.agenda turn mem change changes
      exact ⟨topic.append, fun id same => (replacement id same).append, attributed⟩
    · have attributed := checked.agenda change changes
      exact ⟨known _ attributed.topic, fun id same => known id (attributed.replacement id same),
        attributed.answer, attributed.decision⟩
  · intro answer mem
    obtain ⟨checkpoint, ⟨turn, held, answers⟩, option⟩ := kept.answers answer mem
    exact ⟨checkpoint, ⟨turn, List.mem_append_left _ held, answers⟩, option⟩

theorem Kept.answer (kept : Kept comparison answers conversation) {answer : ReviewerAnswer}
    (posted : Posted comparison answers conversation answer) :
    Kept comparison (answers ++ [answer]) conversation := by
  have known (id : String) (held : ∃ answer ∈ answers, answer.id = id) :
      ∃ other ∈ answers ++ [answer], other.id = id := by
    obtain ⟨other, mem, same⟩ := held
    exact ⟨other, List.mem_append_left _ mem, same⟩
  refine ⟨kept.checkpoints, kept.prerequisites, fun turn mem change changes => ?_, ?_⟩
  · obtain ⟨topic, replacement, answered, decided⟩ := kept.agenda turn mem change changes
    exact ⟨topic, replacement, fun id same => known id (answered id same),
      fun id same => known id (decided id same)⟩
  · exact List.forall_mem_append.mpr ⟨kept.answers,
      List.forall_mem_singleton.mpr ⟨posted.checkpoint, posted.context, posted.option⟩⟩

theorem Kept.revise (kept : Kept comparison answers conversation) {turn : ConversationTurn}
    (revised : Revised comparison answers conversation turn) :
    Kept comparison answers (conversation ++ [turn]) := by
  constructor
  · exact List.forall_mem_append.mpr ⟨kept.checkpoints,
      List.forall_mem_singleton.mpr revised.checkpoint⟩
  · refine List.forall_mem_append.mpr ⟨fun turn mem topic sent id required =>
      (kept.prerequisites turn mem topic sent id required).append, List.forall_mem_singleton.mpr ?_⟩
    rw [revised.topics]
    exact fun _ absent => (nomatch absent)
  · refine List.forall_mem_append.mpr ⟨fun turn mem change changes => ?_,
      List.forall_mem_singleton.mpr ?_⟩
    · obtain ⟨topic, replacement, attributed⟩ := kept.agenda turn mem change changes
      exact ⟨topic.append, fun id same => (replacement id same).append, attributed⟩
    · rw [revised.agenda]
      exact fun _ absent => (nomatch absent)
  · intro answer mem
    obtain ⟨checkpoint, ⟨turn, held, answers⟩, option⟩ := kept.answers answer mem
    exact ⟨checkpoint, ⟨turn, List.mem_append_left _ held, answers⟩, option⟩

theorem Grown.kept {floor : Nat} (grown : Grown comparison answers conversation floor) :
    Kept comparison answers conversation := by
  induction grown with
  | start => constructor <;> exact fun _ absent => (nomatch absent)
  | answer _ posted ih => exact ih.answer posted
  | take _ _ _ passed ih => exact ih.passed passed
  | kickoff _ _ passed ih => exact ih.passed passed
  | revise _ revised ih => exact ih.revise revised

end Turns

/-! What was sent. -/

theorem Move.home {d after : Dialogue} {event : Event} (moved : Move d event after) :
    after.instanceId = d.instanceId ∧ after.comparison = d.comparison := by
  cases moved <;> exact ⟨rfl, rfl⟩

namespace Dialogue

/-- What the records of the requests of a dialogue keep. -/
structure Delivered (d : Dialogue) : Prop where
  sent : ∀ id entry, d.sent id = some entry →
    entry.2.request = id ∧ d.Home entry.2 ∧ entry.1 ≠ ""
  retry : ∀ request, d.retry = some request → d.Home request
  implemented : ∀ id entry, d.implemented id = some entry →
    entry.2.delivery = id ∧ entry.2.instanceId = d.instanceId ∧ entry.1 ≠ "" ∧
      ∃ turn ∈ d.conversation, turn.update.request = entry.2.conclusion ∧
        turn.update.conclusion.isSome = true

namespace Delivered

variable {d after : Dialogue}

theorem send (delivered : d.Delivered) {attempt : String} {request : TurnRequest}
    (home : d.Home request) (named : attempt ≠ "") :
    (d.resend attempt request).Delivered where
  sent := fun id entry found => by
    rcases update_eq_some found with ⟨rfl, rfl⟩ | found
    · exact ⟨rfl, home, named⟩
    · exact delivered.sent id entry found
  retry := by
    rintro _ ⟨⟩
    exact home
  implemented := delivered.implemented

/-- More turns change nothing of what was sent. -/
theorem append (delivered : d.Delivered) {turns : List ConversationTurn} {id : String}
    {entry : String × ImplementationRequest} (found : d.implemented id = some entry) :
    entry.2.delivery = id ∧ entry.2.instanceId = d.instanceId ∧ entry.1 ≠ "" ∧
      ∃ turn ∈ d.conversation ++ turns, turn.update.request = entry.2.conclusion ∧
        turn.update.conclusion.isSome = true := by
  obtain ⟨key, home, named, turn, mem, concluded⟩ := delivered.implemented id entry found
  exact ⟨key, home, named, turn, List.mem_append_left _ mem, concluded⟩

theorem move (delivered : d.Delivered) {event : Event} (moved : Move d event after) :
    after.Delivered := by
  cases moved with
  | ask _ _ home _ named _ => exact { delivered.send home named with }
  | resend _ _ _ home named _ _ => exact delivered.send home named
  | accept _ _ _ _ _ =>
    exact ⟨delivered.sent, fun _ absent => (nomatch absent), fun _ _ => delivered.append⟩
  | revise => exact ⟨delivered.sent, delivered.retry, fun _ _ => delivered.append⟩
  | drop => exact { delivered with }
  | fail =>
    refine ⟨delivered.sent, fun request retry => ?_, delivered.implemented⟩
    obtain ⟨previous, held, rfl⟩ := Option.map_eq_some_iff.mp retry
    exact delivered.retry previous held
  | retry _ => exact { delivered with }
  | withdraw _ idle =>
    refine ⟨fun id entry found => delivered.sent id entry (Coherent.sent_of_withdraw found).1,
      fun request retry => ?_, fun id entry found => ?_⟩
    · dsimp only [Dialogue.withdraw] at retry
      split_ifs at retry
      exact delivered.retry request retry
    · exact absurd ((idle id).symm.trans found) (fun absent => (nomatch absent))
  | implement named home concluded =>
    refine ⟨delivered.sent, delivered.retry, fun id entry found => ?_⟩
    rcases update_eq_some found with ⟨rfl, rfl⟩ | found
    · exact ⟨rfl, home, named, concluded⟩
    · exact delivered.implemented id entry found

end Delivered

end Dialogue

/-! What loading checks. -/

namespace Exploration

variable {exploration : Exploration}

theorem validateTurns_ok {requests : List String} {turns : List ConversationTurn}
    (homes : ∀ turn ∈ turns, turn.update.instanceId = exploration.instanceId)
    (checkpoints : ∀ turn ∈ turns, turn.update.checkpoint = exploration.comparison.checkpoint)
    (followed : ∀ turn ∈ turns, ∀ id, turn.answer = some id → exploration.knownAnswer id = true)
    (nodup : (turns.map (·.update.request)).Nodup)
    (new : ∀ turn ∈ turns, turn.update.request ∉ requests) :
    exploration.validateTurns requests turns = .ok () := by
  induction turns generalizing requests with
  | nil => rfl
  | cons turn turns ih =>
    obtain ⟨home, homes⟩ := List.forall_mem_cons.mp homes
    obtain ⟨checkpoint, checkpoints⟩ := List.forall_mem_cons.mp checkpoints
    obtain ⟨follows, followed⟩ := List.forall_mem_cons.mp followed
    obtain ⟨first, new⟩ := List.forall_mem_cons.mp new
    obtain ⟨apart, nodup⟩ := List.nodup_cons.mp nodup
    rw [validateTurns, ensure_bind_eq_ok, ensure_bind_eq_ok]
    refine ⟨⟨home, checkpoint, first⟩, ?_, ih homes checkpoints followed nodup fun other mem => ?_⟩
    · cases answer : turn.answer with
      | none => rfl
      | some id => exact follows id answer
    · refine List.not_mem_cons_of_ne_of_not_mem (fun same => ?_) (new other mem)
      exact apart (List.mem_map.mpr ⟨other, mem, same⟩)

theorem validateSavedAnswer_ok {answer : ReviewerAnswer}
    (requests : (exploration.conversation.map (·.update.request)).Nodup)
    (context : ∃ turn ∈ exploration.conversation, Answers answer turn)
    (option : ∀ option, answer.option = some option →
      ∃ question, answer.question = some question ∧ option ∈ question.choices) :
    exploration.validateSavedAnswer answer = .ok () := by
  obtain ⟨turn, mem, replies, asks⟩ := context
  have found : exploration.conversation.find? (fun turn => turn.update.request = answer.inReplyTo) =
      some turn := (Keyed.find_eq_some requests).mpr ⟨mem, replies⟩
  rw [validateSavedAnswer, ensure_bind_eq_ok, ensure_eq_ok, found]
  constructor
  · cases given : answer.question with
    | none => rw [given] at asks; simpa [Asks] using asks
    | some question => rw [given] at asks; simpa [Asks] using asks
  · cases chosen : answer.option with
    | none => rfl
    | some option' =>
      obtain ⟨question, given, mem⟩ := option option' chosen
      simp [given, mem]

theorem validateAnswers_ok {seen : List String} {answers : List ReviewerAnswer}
    (each : ∀ answer ∈ answers, answer.checkpoint = exploration.comparison.checkpoint ∧
      (∀ question, answer.question = some question → question ∈ exploration.questions) ∧
      exploration.validateSavedAnswer answer = .ok ())
    (nodup : (answers.map (·.id)).Nodup) (new : ∀ answer ∈ answers, answer.id ∉ seen) :
    exploration.validateAnswers seen answers = .ok () := by
  induction answers generalizing seen with
  | nil => rfl
  | cons answer answers ih =>
    obtain ⟨⟨checkpoint, questions, saved⟩, each⟩ := List.forall_mem_cons.mp each
    obtain ⟨first, new⟩ := List.forall_mem_cons.mp new
    obtain ⟨apart, nodup⟩ := List.nodup_cons.mp nodup
    rw [validateAnswers, ensure_bind_eq_ok, ensure_bind_eq_ok, unit_bind_eq_ok]
    refine ⟨⟨checkpoint, first⟩, ?_, saved, ih each nodup fun other mem => ?_⟩
    · cases given : answer.question with
      | none => rfl
      | some question => simpa using questions question given
    · refine List.not_mem_cons_of_ne_of_not_mem (fun same => ?_) (new other mem)
      exact apart (List.mem_map.mpr ⟨other, mem, same⟩)

theorem knownAnswer_iff {id : String} :
    exploration.knownAnswer id = true ↔ ∃ answer ∈ exploration.answers, answer.id = id := by
  simp [knownAnswer]

theorem concluded_iff {request : String} : exploration.concluded request = true ↔
    ∃ turn ∈ exploration.conversation, turn.update.request = request ∧
      turn.update.conclusion.isSome = true := by
  simp [concluded]

/-- The topics and the agenda load. -/
theorem validateSavedAgenda_ok
    (keyed : ∀ id topic, exploration.topics.lookup id = some topic → topic.id = id)
    (closed : ∀ id topic, exploration.topics.lookup id = some topic →
      ∀ other ∈ topic.prerequisites, exploration.topics.contains other = true)
    (sends : ∀ id, Sends exploration.conversation id ↔ exploration.topics.contains id = true)
    (asked : ∀ question ∈ exploration.questions, exploration.topics.contains question.topic = true)
    (kept : Kept exploration.comparison exploration.answers exploration.conversation) :
    exploration.validateSavedAgenda = .ok () := by
  rw [validateSavedAgenda, ensure_bind_eq_ok, unit_bind_eq_ok, ensure_bind_eq_ok]
  refine ⟨?_, ?_, ?_, ?_⟩
  · refine List.all_eq_true.mpr fun entry mem => ?_
    simpa using (keyed entry.1 entry.2 (SortedMap.lookup_eq_some.mpr mem)).symm
  · refine forM_eq_ok.mpr fun topic mem => ensure_eq_ok.mpr ?_
    rcases List.mem_append.mp mem with held | sent
    · obtain ⟨id, found⟩ := SortedMap.mem_values.mp held
      obtain rfl := keyed id topic found
      exact ⟨SortedMap.contains_iff.mpr ⟨topic, found⟩,
        List.all_eq_true.mpr (closed topic.id topic found)⟩
    · obtain ⟨turn, mem, sent⟩ := List.mem_flatMap.mp sent
      exact ⟨(sends _).mp ⟨turn, mem, topic, sent, rfl⟩, List.all_eq_true.mpr fun id required =>
        (sends id).mp (kept.prerequisites turn mem topic sent id required)⟩
  · exact List.all_eq_true.mpr asked
  · refine forM_eq_ok.mpr fun change mem => ?_
    obtain ⟨turn, mem, changes⟩ := List.mem_flatMap.mp mem
    obtain ⟨topic, replacement, answer, decision⟩ := kept.agenda turn mem change changes
    rw [ensure_bind_eq_ok, ensure_eq_ok]
    refine ⟨⟨(sends _).mp topic, ?_⟩, ?_, ?_⟩
    · cases named : change.replacement with
      | none => rfl
      | some id => exact (sends id).mp (replacement id named)
    · cases named : change.answer with
      | none => rfl
      | some id => exact knownAnswer_iff.mpr (answer id named)
    · cases named : change.decision with
      | none => rfl
      | some id => exact knownAnswer_iff.mpr (decision id named)

end Exploration

namespace ExploreRound

variable {round : ExploreRound} {floor : Nat}

theorem exploration_restored (coherent : round.dialogue.Coherent)
    (growing : round.dialogue.Growing floor) (delivered : round.dialogue.Delivered)
    (named : round.exploration.instanceId ≠ "") (mapped : round.exploration.comparison.Mapped) :
    round.exploration.validateRestored = .ok () := by
  have decided : round.exploration.toDecided =
      replayed round.exploration.answers round.exploration.conversation := coherent.decided
  have kept : Kept round.exploration.comparison round.exploration.answers
      round.exploration.conversation := growing.grown.kept
  have deciding : Deciding round.exploration.answers round.exploration.conversation :=
    growing.grown.deciding
  have grounded := grounded_requirements.mp growing.grown.grounded
  have topics : round.exploration.topics =
      (replayed round.exploration.answers round.exploration.conversation).topics :=
    congrArg Decided.topics decided
  have questions : round.exploration.questions =
      round.exploration.conversation.filterMap (·.update.next) :=
    (congrArg Decided.questions decided).trans replayed_questions
  have asks {turn : ConversationTurn} {question : Question}
      (mem : turn ∈ round.exploration.conversation) (asked : turn.update.next = some question) :
      question ∈ round.exploration.questions :=
    questions ▸ List.mem_filterMap.mpr ⟨turn, mem, asked⟩
  rw [Exploration.validateRestored, ensure_bind_eq_ok, unit_bind_eq_ok, ensure_bind_eq_ok,
    unit_bind_eq_ok, unit_bind_eq_ok, ensure_bind_eq_ok, unit_bind_eq_ok, ensure_eq_ok]
  refine ⟨named, ?_, questions.symm, ?_, ?_, ?_, ?_, mapped⟩
  · exact Exploration.validateTurns_ok coherent.homes kept.checkpoints
      (fun turn mem id follows => Exploration.knownAnswer_iff.mpr (coherent.followed turn mem id follows))
      coherent.requests fun _ _ => List.not_mem_nil
  · refine Exploration.validateSavedAgenda_ok coherent.keyed (topics ▸ grounded.1)
      (fun id => topics ▸ contains_replayed.symm) (fun question mem => ?_) kept
    obtain ⟨turn, mem, asked⟩ := List.mem_filterMap.mp (questions ▸ mem)
    exact topics ▸ deciding.asked turn mem question asked
  · refine Exploration.validateAnswers_ok (fun answer mem => ?_) coherent.answers
      fun _ _ => List.not_mem_nil
    obtain ⟨checkpoint, context, option⟩ := kept.answers answer mem
    refine ⟨checkpoint, fun question given => ?_,
      Exploration.validateSavedAnswer_ok coherent.requests context option⟩
    obtain ⟨turn, mem, -, asked⟩ := context
    rw [given] at asked
    exact asks mem asked
  · refine List.all_eq_true.mpr fun item mem => Exploration.knownAnswer_iff.mpr ?_
    exact deciding.attributed item (congrArg Decided.interpretations decided ▸ mem)
  · refine forM_eq_ok.mpr fun request mem => ensure_eq_ok.mpr ?_
    have retry : round.dialogue.retry = some request := by
      rcases List.mem_append.mp mem with outstanding | retry
      · exact coherent.retry_of_outstanding (Option.mem_toList.mp outstanding)
      · exact Option.mem_toList.mp retry
    obtain ⟨home, checkpoint⟩ := delivered.retry request retry
    obtain ⟨entry, sent, carries⟩ := coherent.retried request retry
    refine ⟨home, checkpoint, ?_⟩
    cases given : request.answer with
    | none => rfl
    | some answer =>
      have held : answer ∈ round.exploration.answers :=
        coherent.carried _ entry answer sent (carries.trans given)
      simpa using held

/-- A round loads again when its dialogue has what loading checks. -/
theorem restored (coherent : round.dialogue.Coherent) (growing : round.dialogue.Growing floor)
    (delivered : round.dialogue.Delivered) (named : round.exploration.instanceId ≠ "")
    (mapped : round.exploration.comparison.Mapped) : round.validateRestored = .ok () := by
  rw [validateRestored, unit_bind_eq_ok, ensure_bind_eq_ok, unit_bind_eq_ok]
  refine ⟨exploration_restored coherent growing delivered named mapped, ?_, ?_, ?_⟩
  · cases completes : round.completion with
    | none => rfl
    | some completion =>
      obtain ⟨baseline, turn, mem, -, same, concluded⟩ := coherent.completed completion completes
      have concluded : round.exploration.concluded completion.request = true :=
        Exploration.concluded_iff.mpr ⟨turn, mem, same, concluded⟩
      have baseline : round.exploration.comparison.checkpoint.checkpoint = completion.baseline :=
        baseline.symm
      simp [concluded, baseline]
  · refine forM_eq_ok.mpr fun entry mem => ?_
    have sent : round.dialogue.sent entry.1 = some (entry.2.attempt, entry.2.request) :=
      Option.map_eq_some_iff.mpr ⟨_, SortedMap.lookup_eq_some.mpr mem, rfl⟩
    obtain ⟨key, ⟨home, checkpoint⟩, attempted⟩ := delivered.sent entry.1 _ sent
    rw [validateDelivery, ensure_bind_eq_ok, ensure_eq_ok]
    refine ⟨⟨key.symm, home, checkpoint, attempted⟩, ?_⟩
    cases given : entry.2.request.answer with
    | none => rfl
    | some answer =>
      have held : answer ∈ round.exploration.answers := coherent.carried _ _ answer sent given
      simpa using held
  · refine forM_eq_ok.mpr fun entry mem => ?_
    have implemented : round.dialogue.implemented entry.1 =
        some (entry.2.attempt, entry.2.request) :=
      Option.map_eq_some_iff.mpr ⟨_, SortedMap.lookup_eq_some.mpr mem, rfl⟩
    obtain ⟨key, home, attempted, concluded⟩ := delivered.implemented entry.1 _ implemented
    rw [validateSavedImplementation, ensure_bind_eq_ok, ensure_eq_ok]
    exact ⟨⟨key.symm, home, attempted⟩, Exploration.concluded_iff.mpr concluded⟩

/-- What names a round and its change stays. -/
structure Named (round : ExploreRound) : Prop where
  instanceId : round.exploration.instanceId ≠ ""
  mapped : round.exploration.comparison.Mapped

theorem Named.step (named : round.Named) {action : Action} (fresh : round.Fresh action) :
    (round.step action).Named := by
  obtain ⟨events, -, path⟩ := step_path fresh
  have same : (round.step action).dialogue.instanceId = round.dialogue.instanceId ∧
      (round.step action).dialogue.comparison = round.dialogue.comparison := by
    generalize round.dialogue = before at path
    generalize (round.step action).dialogue = after at path
    induction path with
    | nil => exact ⟨rfl, rfl⟩
    | cons moved _ ih =>
      have kept := moved.home
      exact ⟨ih.1.trans kept.1, ih.2.trans kept.2⟩
  have comparison : (round.step action).exploration.comparison = round.exploration.comparison :=
    same.2
  exact ⟨fun empty => named.instanceId (same.1.symm.trans empty), comparison ▸ named.mapped⟩

theorem delivered_step (delivered : round.dialogue.Delivered) {action : Action}
    (fresh : round.Fresh action) : (round.step action).dialogue.Delivered :=
  step_keeps Dialogue.Delivered fresh delivered (fun _ _ _ moved => delivered.move moved)
    fun _ _ _ delivered moved => delivered.move moved

end ExploreRound

namespace Openings

variable {start : ExploreRound} {log : Openings}

end Openings

namespace Sample

open ExploreRound (step Fresh)

end Sample

end ProgressiveReviewer.Explore
