import Mathlib.Algebra.Ring.Nat
import ProgressiveReviewer.Explore.Turn
import ProgressiveReviewer.Library.Failing

/-! Checks of the agenda a turn asks for (`review-explore/src/agenda_validation.rs`). -/

namespace ProgressiveReviewer.Explore

open Library Hunks Marks

namespace Topic

/-- Follow the prerequisites still pending, the last one first. `fuel` bounds how many
are followed. -/
def followPrerequisites (topic : Topic) (topics : SortedMap String Topic) :
    Nat → List String → List String → Except String Unit
  | _, _, [] => .ok ()
  | 0, _, _ :: _ => .ok ()
  | fuel + 1, visited, id :: pending => do
    ensure (id ≠ topic.id) s!"The prerequisites of topic {topic.id} lead back to it"
    match topics.lookup id with
    | none => .error s!"Topic {topic.id} has an unknown prerequisite {id}"
    | some prerequisite =>
      if id ∈ visited then followPrerequisites topic topics fuel visited pending
      else
        followPrerequisites topic topics fuel (id :: visited)
          (prerequisite.prerequisites.reverse ++ pending)

/-- How many prerequisites the topics not visited yet name. -/
def unvisited (topics : SortedMap String Topic) (visited : List String) : Nat :=
  ((topics.entries.filter fun entry => entry.1 ∉ visited).map
    fun entry => entry.2.prerequisites.length).sum

def validatePrerequisites (topic : Topic) (topics : SortedMap String Topic) :
    Except String Unit :=
  topic.followPrerequisites topics (topic.prerequisites.length + unvisited topics []) []
    topic.prerequisites.reverse

end Topic

section AgendaChange

variable (change : AgendaChange) (exploration : Exploration)

namespace AgendaChange

def validateReason (world : World) : Except String Unit := do
  ensure (!isBlank change.reason && (change.answer.isSome || !change.evidence.isEmpty))
    "Agenda changes need an attributed reason"
  ensure ((change.answer.all fun id => exploration.answers.any fun answer => answer.id = id) &&
      change.evidence.all (exploration.comparison.validateEvidence world))
    "Unknown agenda reason reference"

/-- Whether an interpreted answer decided the topic of the change. -/
def decided : Bool :=
  exploration.interpretations.any fun interpretation =>
    exploration.answersTopic interpretation.answer change.topic

def validateDecision : Except String Unit := do
  match change.decision with
  | none => .ok ()
  | some decision =>
    ensure (change.action = .reconsider &&
        (exploration.interpretations.any fun interpretation => interpretation.answer = decision) &&
        exploration.answersTopic decision change.topic)
      "Reconsideration must reference a decision on this topic"
  ensure (¬(change.action = .reconsider ∧ change.decided exploration) ∨ change.decision.isSome)
    "Preserve the decision being reconsidered"

def validateReplacement (topics : SortedMap String Topic) (agenda : List AgendaChange) :
    Except String Unit :=
  match change.action with
  | .supersede =>
    match change.replacement with
    | none => .error "Supersede needs a replacement"
    | some replacement => do
      ensure (replacement ≠ change.topic ∧ topics.contains replacement)
        "Invalid replacement topic"
      ensure (¬(((agenda.find? fun item => item.topic = replacement).or
          (exploration.agendaChange replacement)).any fun item => item.action.closes))
        "Replacement topic must remain active"
  | _ => ensure change.replacement.isNone "Only supersede has a replacement"

end AgendaChange

end AgendaChange

namespace Exploration

variable (exploration : Exploration)

/-- The agenda once the topics of a turn are in it. -/
def validateSentTopics (topics : SortedMap String Topic) :
    List Topic → Except String (SortedMap String Topic)
  | [] => .ok topics
  | topic :: sent => do
    ensure (¬((exploration.agendaChange topic.id).any fun change => change.action.closes) ∨
        (exploration.topics.lookup topic.id).any fun previous => previous.sameButStatus topic)
      s!"Topic {topic.id} is retired or superseded: leave it out of topics"
    validateSentTopics (topics.insert topic.id topic) sent

def validateChanges (world : World) (topics : SortedMap String Topic)
    (agenda : List AgendaChange) (changed : List String) :
    List AgendaChange → Except String Unit
  | [] => .ok ()
  | change :: changes => do
    ensure (topics.contains change.topic) s!"Agenda change on unknown topic {change.topic}"
    ensure (change.topic ∉ changed) s!"Topic {change.topic} has two agenda changes: send one"
    change.validateReason exploration world
    change.validateReplacement exploration topics agenda
    change.validateDecision exploration
    validateChanges world topics agenda (change.topic :: changed) changes

def validateAgenda (world : World) (update : InterviewUpdate) : Except String Unit := do
  let topics ← exploration.validateSentTopics exploration.topics update.topics
  topics.values.forM fun topic => topic.validatePrerequisites topics
  exploration.validateChanges world topics update.agenda [] update.agenda

end Exploration

end ProgressiveReviewer.Explore
