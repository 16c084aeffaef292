import ProgressiveReviewer.Explore.Growth

/-! The prerequisites of an exploration, over whole runs: the topics they name are in the
agenda and no topic leads back to itself. -/

namespace ProgressiveReviewer.Explore

open Library Relation

theorem grounded_requirements {topics : SortedMap String Topic} : Grounded (requirements topics) ↔
    (∀ id topic, topics.lookup id = some topic →
      ∀ other ∈ topic.prerequisites, topics.contains other = true) ∧
    ∀ id, ¬TransGen (Linked (requirements topics)) id id := by
  constructor
  · intro grounded
    refine ⟨fun id topic found other mem => ?_, grounded.acyclic⟩
    rw [← Topic.requirements_isSome]
    exact grounded.closed id other ⟨_, by rw [requirements, found]; rfl, mem⟩
  · rintro ⟨closed, acyclic⟩
    refine ⟨fun id other link => ?_, acyclic⟩
    obtain ⟨named, known, mem⟩ := link
    obtain ⟨topic, found, rfl⟩ := Option.map_eq_some_iff.mp known
    exact Topic.requirements_isSome ▸ closed id topic found other mem

namespace Exploration

variable {exploration : Exploration} {update : InterviewUpdate} {answer : Option ReviewerAnswer}

/-- What the topics require, once a turn is absorbed, is what the checks looked at. -/
theorem requirements_absorb : requirements (exploration.toDecided.absorb update answer).topics =
    requirements (exploration.merged update.topics) := by
  funext id
  exact (Decided.lookup_absorb (·.prerequisites) fun _ _ => rfl).trans
    (Decided.lookup_sent (fun _ topic => topic) (·.prerequisites) fun _ _ => rfl).symm

theorem keyed_foldl_insert {topics : SortedMap String Topic} {sent : List Topic}
    (keyed : ∀ id topic, topics.lookup id = some topic → topic.id = id) :
    ∀ id topic, (sent.foldl (fun kept topic => kept.insert topic.id topic) topics).lookup id =
      some topic → topic.id = id := by
  induction sent generalizing topics with
  | nil => exact keyed
  | cons first rest ih =>
    refine ih fun id topic found => ?_
    rw [SortedMap.lookup_insert] at found
    split_ifs at found with same
    · obtain rfl := Option.some.inj found
      exact same
    · exact keyed id topic found

theorem forM_merged {sent : List Topic}
    (keyed : ∀ id topic, exploration.topics.lookup id = some topic → topic.id = id) :
    ((exploration.merged sent).values.forM fun topic =>
        topic.validatePrerequisites (exploration.merged sent)) = .ok () ↔
      Grounded (requirements (exploration.merged sent)) :=
  Topic.forM_validatePrerequisites (keyed_foldl_insert keyed)

/-- A turn that passed its checks leaves the prerequisites grounded. -/
theorem grounded_of_validate {world : World}
    (keyed : ∀ id topic, exploration.topics.lookup id = some topic → topic.id = id)
    (passed : exploration.validate world update = .ok ()) :
    Grounded (requirements (exploration.toDecided.absorb update answer).topics) := by
  rw [requirements_absorb]
  exact (forM_merged keyed).mp (validateAgenda_eq_ok.mp (validate_eq_ok.mp passed).agenda).2.1

end Exploration

open Dialogue

theorem Dialogue.Coherent.keyed {round : ExploreRound} (coherent : round.dialogue.Coherent) :
    ∀ id topic, round.exploration.topics.lookup id = some topic → topic.id = id := by
  intro id topic found
  have decided : round.exploration.toDecided =
      replayed round.exploration.answers round.exploration.conversation := coherent.decided
  have found : round.exploration.toDecided.topics.lookup id = some topic := found
  exact replayed_keyed (decided ▸ found)

/-- The answers do not touch what the topics require. -/
theorem requirements_replayed {answers others : List ReviewerAnswer}
    {conversation : List ConversationTurn} :
    requirements (replayed answers conversation).topics =
      requirements (replayed others conversation).topics := by
  funext id
  induction conversation using List.reverseRecOn with
  | nil => rfl
  | append_singleton conversation turn ih =>
    rw [replayed_concat, replayed_concat]
    exact (Decided.lookup_absorb (·.prerequisites) fun _ _ => rfl).trans
      ((congrArg _ ih).trans (Decided.lookup_absorb (·.prerequisites) fun _ _ => rfl).symm)

namespace Grown

variable {comparison : Comparison} {answers : List ReviewerAnswer}
variable {conversation : List ConversationTurn} {floor : Nat}

theorem passed_grounded {answer : Option ReviewerAnswer} {turn : ConversationTurn}
    (passed : Passed comparison answers conversation answer turn.update) :
    Grounded (requirements (replayed answers (conversation ++ [turn])).topics) := by
  obtain ⟨exploration, world, _, _, _, decided, _, valid⟩ := passed
  rw [replayed_concat, ← decided]
  refine Exploration.grounded_of_validate (fun id topic found => ?_) valid
  have found : exploration.toDecided.topics.lookup id = some topic := found
  exact replayed_keyed (decided ▸ found)

theorem grounded (grown : Grown comparison answers conversation floor) :
    Grounded (requirements (replayed answers conversation).topics) := by
  induction grown with
  | start => exact grounded_none
  | answer _ _ ih => exact requirements_replayed ▸ ih
  | take _ _ _ passed _ => exact passed_grounded passed
  | kickoff _ _ passed _ => exact passed_grounded passed
  | @revise answers conversation floor turn _ revised ih =>
    have kept : requirements (replayed answers (conversation ++ [turn])).topics =
        requirements (replayed answers conversation).topics := by
      funext id
      rw [replayed_concat]
      refine (Decided.lookup_absorb (·.prerequisites) fun _ _ => rfl).trans ?_
      rw [revised.topics]
      rfl
    exact kept ▸ ih

end Grown

namespace Openings

variable {start : ExploreRound} {log : Openings}

end Openings

namespace Sample

open ExploreRound (step Fresh)

def other : Topic := ⟨"other", "Other", [], .«open», "", [], 0⟩

/-- The answer brings a topic that needs the first one. -/
def grown : Openings :=
  [post (request "kickoff" none []), submit (first "why" [topic]), reply,
    submit (asking "reply" "how" [{ other with prerequisites := ["topic"] }])].foldl Openings.step
      (Openings.new opened)

/-- The answer brings a topic, and a second opening request a topic that needs it. -/
def reopened : ExploreRound :=
  [reply, submit (asking "reply" "how" [other]), post (request "again" none []),
    submit { asking "again" "when" [{ topic with prerequisites := ["other"] }] with
      design := some design }].foldl step waiting

end Sample

end ProgressiveReviewer.Explore
