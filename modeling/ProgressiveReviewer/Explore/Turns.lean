import ProgressiveReviewer.Explore.Coherence

/-! What the turns of a conversation decide, read off the turns, and which operations add a
turn. -/

namespace ProgressiveReviewer.Explore

open Library

namespace Decided

variable {decided : Decided} {update : InterviewUpdate} {answer : Option ReviewerAnswer}
variable {sent : List Topic} {id : String}

/-- The topics that a turn sends, in the agenda. -/
def takeTopics (decided : Decided) (sent : List Topic) : SortedMap String Topic :=
  (sent.foldl takeTopic decided).topics

theorem foldl_takeTopic : sent.foldl takeTopic decided =
    { decided with topics := decided.takeTopics sent } := by
  induction sent generalizing decided with
  | nil => rfl
  | cons topic rest ih =>
    rw [takeTopics, List.foldl_cons, ih]
    rfl

theorem takeTopics_congr {other : Decided} (same : decided.topics = other.topics) :
    decided.takeTopics sent = other.takeTopics sent := by
  induction sent generalizing decided other with
  | nil => exact same
  | cons topic rest ih => exact ih (by simp only [takeTopic, same])

theorem absorb_questions : (decided.absorb update answer).questions =
    decided.questions ++ update.next.toList := by
  have kept : ∀ interpretation, ((update.topics.foldl takeTopic
      (decided.define update.glossary)).interpret interpretation answer).questions =
        decided.questions := fun interpretation => by
    rw [foldl_takeTopic]
    cases interpretation <;> cases answer <;> rfl
  exact congrArg (· ++ update.next.toList) (kept update.interpretation)

theorem absorb_interpretations : (decided.absorb update answer).interpretations =
    decided.interpretations ++ (update.interpretation.filter fun _ => answer.isSome).toList := by
  simp only [absorb, conclude, recordReport, ask, foldl_takeTopic]
  cases update.interpretation <;> cases answer <;> simp [interpret, settle, define, Option.filter]

/-- The status that a turn gives to the topic its answer's question belongs to. -/
def settled (interpretation : Option Interpretation) (answer : Option ReviewerAnswer)
    (topics : SortedMap String Topic) : SortedMap String Topic :=
  match interpretation, answer.bind (·.question) with
  | some interpretation, some question =>
    topics.modify question.topic (·.withStatus interpretation.status)
  | _, _ => topics

theorem absorb_topics : (decided.absorb update answer).topics =
    settled update.interpretation answer (decided.takeTopics update.topics) := by
  have defined : (decided.define update.glossary).takeTopics update.topics =
      decided.takeTopics update.topics := takeTopics_congr rfl
  simp only [absorb, conclude, recordReport, ask, foldl_takeTopic, defined, settled]
  cases update.interpretation with
  | none => cases answer <;> rfl
  | some interpretation =>
    cases answer with
    | none => rfl
    | some answer => cases given : answer.question <;> simp [interpret, settle, given]

/-- What a topic of the agenda shows of itself is what the latest turn that sent it said. -/
theorem lookup_sent {β : Type} (made : SortedMap String Topic → Topic → Topic) (shown : Topic → β)
    (same : ∀ topics topic, shown (made topics topic) = shown topic)
    {topics : SortedMap String Topic} :
    ((sent.foldl (fun kept topic => kept.insert topic.id (made kept topic)) topics).lookup id).map
        shown =
      ((sent.reverse.find? fun topic => topic.id = id).map shown).or
        ((topics.lookup id).map shown) := by
  induction sent generalizing topics with
  | nil => rfl
  | cons topic rest ih =>
    rw [List.foldl_cons, ih, List.reverse_cons, List.find?_append, SortedMap.lookup_insert]
    cases rest.reverse.find? fun topic => topic.id = id with
    | some _ => rfl
    | none => by_cases here : topic.id = id <;> simp [here, same]

theorem takeTopics_eq : decided.takeTopics sent = sent.foldl (fun kept topic =>
    kept.insert topic.id (topic.withStatus (((kept.lookup topic.id).map (·.status)).getD .«open»)))
      decided.topics := by
  induction sent generalizing decided with
  | nil => rfl
  | cons topic rest ih => exact ih

theorem contains_takeTopics : (decided.takeTopics sent).contains id = true ↔
    decided.topics.contains id = true ∨ ∃ topic ∈ sent, topic.id = id := by
  induction sent generalizing decided with
  | nil => simp [takeTopics]
  | cons topic rest ih =>
    have taken : decided.takeTopics (topic :: rest) = (decided.takeTopic topic).takeTopics rest := rfl
    rw [taken, ih, takeTopic, SortedMap.contains_insert]
    simp only [List.mem_cons, exists_eq_or_imp]
    tauto

theorem contains_settled {topics : SortedMap String Topic}
    {interpretation : Option Interpretation} :
    (settled interpretation answer topics).contains id = true ↔ topics.contains id = true := by
  unfold settled
  split
  · rw [SortedMap.contains_modify]
  · rfl

theorem contains_absorb : (decided.absorb update answer).topics.contains id = true ↔
    decided.topics.contains id = true ∨ ∃ topic ∈ update.topics, topic.id = id := by
  rw [absorb_topics, contains_settled, contains_takeTopics]

/-- What a topic shows besides its status is what the latest turn that sent it said. -/
theorem lookup_absorb {β : Type} (shown : Topic → β)
    (same : ∀ topic status, shown (topic.withStatus status) = shown topic) :
    ((decided.absorb update answer).topics.lookup id).map shown =
      ((update.topics.reverse.find? fun topic => topic.id = id).map shown).or
        ((decided.topics.lookup id).map shown) := by
  have taken : ((decided.takeTopics update.topics).lookup id).map shown =
      ((update.topics.reverse.find? fun topic => topic.id = id).map shown).or
        ((decided.topics.lookup id).map shown) := by
    rw [takeTopics_eq]
    exact lookup_sent (fun kept topic =>
      topic.withStatus (((kept.lookup topic.id).map (·.status)).getD .«open»)) shown
      (fun _ topic => same topic _)
  rw [absorb_topics, ← taken]
  unfold settled
  split
  · rw [SortedMap.lookup_modify]
    split_ifs with here
    · subst here
      rw [Option.map_map]
      exact congrArg (Option.map · _) (funext fun topic => same topic _)
    · rfl
  · rfl

/-- A topic sent again keeps its status, and a new one is open. -/
theorem status_takeTopics : ((decided.takeTopics sent).lookup id).map (·.status) =
    ((decided.topics.lookup id).map (·.status)).or
      (if sent.any (·.id = id) then some .«open» else none) := by
  induction sent generalizing decided with
  | nil => simp [takeTopics]
  | cons topic rest ih =>
    have taken : decided.takeTopics (topic :: rest) = (decided.takeTopic topic).takeTopics rest := rfl
    rw [taken, ih, takeTopic, SortedMap.lookup_insert]
    by_cases here : topic.id = id
    · subst here
      cases decided.topics.lookup topic.id <;> simp [Topic.withStatus]
    · simp [here]

end Decided

namespace Dialogue

variable {answers : List ReviewerAnswer} {conversation : List ConversationTurn} {id : String}

theorem replayed_questions :
    (replayed answers conversation).questions = conversation.filterMap (·.update.next) := by
  induction conversation using List.reverseRecOn with
  | nil => rfl
  | append_singleton conversation turn ih =>
    rw [replayed_concat, Decided.absorb_questions, ih, List.filterMap_append]
    cases given : turn.update.next <;> simp [given]

/-- A topic is in the agenda once a turn sent it. -/
theorem contains_replayed : (replayed answers conversation).topics.contains id = true ↔
    ∃ turn ∈ conversation, ∃ topic ∈ turn.update.topics, topic.id = id := by
  induction conversation using List.reverseRecOn with
  | nil => simp [replayed, Decided.nothing, SortedMap.contains, SortedMap.empty]
  | append_singleton conversation turn ih =>
    rw [replayed_concat, Decided.contains_absorb, ih]
    simp [or_and_right, exists_or]

/-- The agenda files every topic under its identity. -/
theorem replayed_keyed {topic : Topic}
    (found : (replayed answers conversation).topics.lookup id = some topic) : topic.id = id := by
  induction conversation using List.reverseRecOn generalizing topic with
  | nil => cases found
  | append_singleton conversation turn ih =>
    have shown : ((replayed answers (conversation ++ [turn])).topics.lookup id).map (·.id) =
        ((turn.update.topics.reverse.find? fun topic => topic.id = id).map (·.id)).or
          (((replayed answers conversation).topics.lookup id).map (·.id)) :=
      replayed_concat ▸ Decided.lookup_absorb (·.id) fun _ _ => rfl
    rw [found] at shown
    rcases Option.or_eq_some_iff.mp shown.symm with sent | ⟨_, held⟩
    · obtain ⟨sent, first, same⟩ := Option.map_eq_some_iff.mp sent
      exact same.symm.trans (by simpa using List.find?_some first)
    · obtain ⟨held, before, same⟩ := Option.map_eq_some_iff.mp held
      exact same.symm.trans (ih before)

end Dialogue

/-- The moves that add a turn to the conversation. -/
def Event.IsTurn : Event → Prop
  | .took _ _ | .revised _ => True
  | _ => False

/-- The operations that can add one. -/
def Action.AddsTurn : Action → Prop
  | .submit .. | .revise .. => True
  | _ => False

theorem Action.Brings.noTurn {action : Action} {events : List Event} (brings : action.Brings events)
    (other : ¬action.AddsTurn) : ∀ event ∈ events, ¬event.IsTurn := by
  cases brings with
  | nothing => exact fun _ mem => absurd mem List.not_mem_nil
  | @move action event makes =>
    rintro _ (_ | ⟨_, ⟨⟩⟩)
    cases event <;> first | exact id | cases action <;> first | exact makes.elim | exact absurd trivial other
  | back answers =>
    intro event mem
    obtain ⟨answer, _, rfl⟩ := List.mem_map.mp mem
    exact id

namespace ExploreRound

variable {round changed : ExploreRound}

theorem submitted_valid {world : World} {now : Nat} {diverged : List String}
    {update : InterviewUpdate}
    (ran : round.submitted world now diverged update = .ok (true, changed)) :
    round.exploration.validate world update = .ok () := by
  obtain ⟨⟨applied, kept⟩, ran, rest⟩ := except_bind_eq_ok.mp ran
  obtain ⟨⟨applied', candidate⟩, submitted, ran⟩ := except_bind_eq_ok.mp ran
  rcases submit_cases submitted with ⟨rfl, rfl⟩ | ⟨_, _, _, _, _, _, valid, _⟩
  · cases ran
    cases rest
  · exact valid

/-- An operation adds a turn that passed the checks, or moves the dialogue otherwise. -/
theorem step_turns {action : Action} (fresh : round.Fresh action) :
    (∃ events, action.Brings events ∧ (∀ event ∈ events, ¬event.IsTurn) ∧
        Path Move round.dialogue events (round.step action).dialogue) ∨
      (∃ world request update, round.exploration.outstanding = some request ∧
        round.exploration.validate world update = .ok () ∧
        Move round.dialogue (.took request update) (round.step action).dialogue) ∨
      ∃ world turn, round.exploration.validate world
          { turn.update with reviewed := [], reopened := [] } = .ok () ∧
        Move round.dialogue (.revised turn) (round.step action).dialogue := by
  rcases round.step_eq action with same | ⟨changed, revision, ran, same⟩
  · rw [same]
    exact .inl ⟨_, .nothing, fun _ mem => absurd mem List.not_mem_nil, .nil⟩
  have done : (round.step action).dialogue = changed.dialogue := by rw [same]; rfl
  rw [done]
  cases action with
  | submit world now diverged update =>
    obtain ⟨⟨new, _⟩, submitted, rfl⟩ := except_map_eq_ok.mp ran
    rcases submitted_moves submitted with ⟨_, rfl⟩ | ⟨rfl, request, outstanding, moved⟩
    · exact .inl ⟨_, .nothing, fun _ mem => absurd mem List.not_mem_nil, .nil⟩
    · exact .inr (.inl ⟨world, request, update, outstanding, submitted_valid submitted, moved⟩)
  | revise world revision made =>
    obtain ⟨⟨new, kept⟩, revised, rfl⟩ := except_map_eq_ok.mp ran
    rcases revise_moves fresh revised with same | ⟨turn, _, valid, moved⟩
    · exact .inl ⟨_, .nothing, fun _ mem => absurd mem List.not_mem_nil, same ▸ .nil⟩
    · exact .inr (.inr ⟨world, turn, valid, moved⟩)
  | _ =>
    obtain ⟨events, brings, path⟩ := run_path fresh ran
    exact .inl ⟨events, brings, brings.noTurn id, path⟩

end ExploreRound

end ProgressiveReviewer.Explore
