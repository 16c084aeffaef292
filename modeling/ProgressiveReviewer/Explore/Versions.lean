import Mathlib.Data.List.Pairwise
import ProgressiveReviewer.Explore.Turns

/-! Versions of a question: they never go back, and a choice is open on the newest only
(`review-explore/src/validation.rs`, `revision.rs`, `agenda.rs`). -/

namespace ProgressiveReviewer.Explore

open Library

/-- Of two versions of a question the later is the greater, on the same topic. -/
def Versioned (questions : List Question) : Prop :=
  questions.Pairwise fun old new => old.id = new.id → old.topic = new.topic ∧ old.version < new.version

namespace Exploration

variable {exploration : Exploration} {world : World} {update : InterviewUpdate} {u : Unit}

theorem validate_newer (passed : exploration.validate world update = .ok u) {question : Question}
    (asked : update.next = some question) : ∀ old ∈ exploration.questions, old.id = question.id →
      old.topic = question.topic ∧ old.version < question.version := by
  have passed := (validate_eq_ok.mp passed).next question asked
  obtain ⟨_, _, immutable, _⟩ := by
    simpa only [validateQuestion, ensure_bind_eq_ok] using passed
  intro old mem same
  have held : ¬(question.version ≤ old.version ∨ old.topic ≠ question.topic) := fun displayed =>
    immutable (List.any_eq_true.mpr ⟨old, mem, by simpa [same] using displayed⟩)
  rw [not_or, Nat.not_le, not_not] at held
  exact held.symm

theorem Versioned.ask {questions : List Question} (versioned : Versioned questions)
    {next : Option Question} (newer : ∀ question, next = some question → ∀ old ∈ questions,
      old.id = question.id → old.topic = question.topic ∧ old.version < question.version) :
    Versioned (questions ++ next.toList) := by
  refine List.pairwise_append.mpr ⟨versioned, ?_, fun old mem question asked => ?_⟩
  · cases next <;> simp
  · exact newer question (Option.mem_toList.mp asked) old mem

end Exploration

namespace Dialogue.Coherent

variable {d after : Dialogue}

theorem questions (coherent : d.Coherent) :
    d.decided.questions = d.conversation.filterMap (·.update.next) := by
  rw [coherent.decided, replayed_questions]

/-- A move that adds no turn asks nothing new. -/
theorem questions_sublist (coherent : d.Coherent) {event : Event} (moved : Move d event after)
    (other : ¬event.IsTurn) : after.decided.questions.Sublist d.decided.questions := by
  have later := coherent.move moved
  cases moved with
  | accept | revise => exact absurd trivial other
  | withdraw =>
    rw [later.questions, coherent.questions]
    exact List.filter_sublist.filterMap _
  | _ => exact .refl _

end Dialogue.Coherent

namespace ExploreRound

open Exploration

variable {start round changed : ExploreRound}

theorem step_versioned {action : Action} (coherent : round.dialogue.Coherent)
    (versioned : Versioned round.exploration.questions) (fresh : round.Fresh action) :
    Versioned (round.step action).exploration.questions := by
  have versioned : Versioned round.dialogue.decided.questions := versioned
  show Versioned (round.step action).dialogue.decided.questions
  rcases step_turns fresh with ⟨_, brings, other, path⟩ | ⟨world, request, update, _, valid, moved⟩ |
    ⟨world, turn, valid, moved⟩
  · clear brings
    generalize (round.step action).dialogue = after at path ⊢
    generalize round.dialogue = d at coherent versioned path
    induction path with
    | nil => exact versioned
    | cons moved _ ih =>
      have fewer := coherent.questions_sublist moved (other _ List.mem_cons_self)
      exact ih (fun event mem => other event (List.mem_cons_of_mem _ mem)) (coherent.move moved)
        (versioned.sublist fewer)
  · generalize (round.step action).dialogue = after at moved ⊢
    cases moved with
    | accept =>
      rw [Dialogue.accept, Decided.absorb_questions]
      exact Versioned.ask versioned fun question asked => validate_newer valid asked
  · generalize (round.step action).dialogue = after at moved ⊢
    cases moved with
    | revise =>
      rw [Dialogue.revise, Decided.absorb_questions]
      exact Versioned.ask versioned fun question asked => validate_newer valid asked

theorem versioned_of_reaches (fresh : start.IsNew) (run : Reaches step Fresh start round) :
    Versioned round.exploration.questions := by
  induction run with
  | start =>
    obtain ⟨_, _, _, _, _, _, rfl⟩ := fresh
    exact List.Pairwise.nil
  | step action run may ih => exact step_versioned (coherent_of_reaches fresh run) ih may

end ExploreRound

namespace Exploration

variable {exploration kept : Exploration}

/-- What a revision keeps of the turn that it follows. -/
theorem revise_eq_ok {world : World} {revision : QuestionRevision} {fresh : String}
    (ran : exploration.revise world revision fresh = .ok (true, kept)) :
    ∃ previous question turn, exploration.conversation.getLast? = some previous ∧
      previous.update.next = some question ∧ kept.conversation = exploration.conversation ++ [turn] ∧
      turn.update.next = some revision.question ∧ revision.question.id = question.id ∧
      question.version < revision.question.version ∧
      (question ∈ exploration.questions → question.topic = revision.question.topic) ∧
      turn.update.reviewed = previous.update.reviewed ∧
      turn.update.reopened = previous.update.reopened ∧
      turn.update.notRelevant = previous.update.notRelevant := by
  rcases ExploreRound.revise_cases ran with ⟨other, _⟩ |
    ⟨_, _, _, previous, question, last, asked, same, newer, valid, rfl⟩
  · cases other
  · exact ⟨previous, question, _, last, asked, rfl, rfl, same, newer,
      fun held => (validate_newer valid rfl question held same.symm).1, rfl, rfl, rfl⟩

/-- A choice is recorded while it can be made. -/
theorem record_canChoose {input : AnswerInput} {question : Option Question} {id : String}
    {answer : ReviewerAnswer} (ran : exploration.record input question id = .ok (answer, kept))
    (chose : answer.option.isSome = true) :
    ∃ asked, question = some asked ∧ exploration.canChoose asked = true := by
  unfold record at ran
  split at ran
  · cases ran
  · obtain ⟨_, ran⟩ := ensure_bind_eq_ok.mp ran
    obtain ⟨_, _, ran⟩ := except_bind_eq_ok.mp ran
    obtain ⟨option, chosen, ran⟩ := except_bind_eq_ok.mp ran
    obtain ⟨pending, _, ran⟩ := by simpa only [ensure_bind_eq_ok] using ran
    cases ran
    have picked : input.option.isNone = false := by
      cases given : input.option with
      | some _ => rfl
      | none =>
        simp only [Exploration.chosen, given, Except.ok.injEq] at chosen
        rw [← chosen] at chose
        cases chose
    rw [picked, Bool.false_or] at pending
    exact (Option.any_eq_true _ _).mp pending

end Exploration

namespace ExploreRound

open Exploration

variable {start round changed : ExploreRound}

/-- What a new answer is, once it is posted. -/
theorem post_chosen {request : TurnRequest} {ids : FreshIds} {attempt : String} {new : Bool}
    (ran : round.post request ids attempt = .ok (new, changed)) {answer : ReviewerAnswer}
    (held : answer ∈ changed.exploration.answers) (added : answer ∉ round.exploration.answers) :
    (∀ question, answer.question = some question →
        ∃ turn ∈ round.exploration.conversation, turn.update.next = some question) ∧
      (answer.option.isSome = true →
        ∃ question, answer.question = some question ∧ round.exploration.canChoose question = true) := by
  obtain ⟨home, ran⟩ := ensure_bind_eq_ok.mp ran
  split at ran
  · obtain ⟨_, _, _, ran⟩ := by simpa only [resend, ensure_bind_eq_ok] using ran
    cases ran
    exact absurd held added
  · obtain ⟨⟨validated, _⟩, made, ran⟩ := except_bind_eq_ok.mp ran
    obtain ⟨_, ran⟩ := ensure_bind_eq_ok.mp ran
    obtain ⟨answers, admitted, ran⟩ := except_bind_eq_ok.mp ran
    cases ran
    obtain ⟨_, made⟩ := ensure_bind_eq_ok.mp made
    obtain ⟨⟨expected, after⟩, recorded, made⟩ := except_bind_eq_ok.mp made
    cases made
    cases given : request.answer with
    | none =>
      rw [given] at recorded
      cases recorded
      cases admitted
      exact absurd held added
    | some posted =>
      rw [given] at recorded
      obtain ⟨⟨written, rest⟩, wrote, pair⟩ := except_map_eq_ok.mp recorded
      cases pair
      simp only [admitAnswer, given] at admitted
      obtain ⟨same, _, admitted⟩ := by simpa only [ensure_bind_eq_ok] using admitted
      cases admitted
      rcases List.mem_append.mp held with old | new
      · exact absurd old added
      · obtain rfl := List.mem_singleton.mp new
        obtain ⟨facts, _⟩ := record_eq_ok wrote
        have question : answer.question = written.question := by rw [← same]
        have option : answer.option = written.option := by rw [← same]
        refine ⟨fun asked given => ?_, fun chose => ?_⟩
        · obtain ⟨turn, mem, _, asks⟩ := facts.context
          rw [← question, given] at asks
          exact ⟨turn, mem, asks⟩
        · obtain ⟨asked, given, can⟩ := record_canChoose wrote (option ▸ chose)
          exact ⟨asked, question.trans (facts.question.trans given), can⟩

end ExploreRound

namespace Sample

open ExploreRound (step Fresh)

/-- A second version of a question. -/
def newer (id : String) : Question := { question id with version := 2 }

def revise (id : String) : Action :=
  .revise world ⟨"round", comparison.checkpoint, ⟨"message", "Reason"⟩, newer id, .empty⟩ "revised"

/-- The first question has a second version. -/
def revised : ExploreRound := waiting.step (revise "why")

theorem reaches_revised : Reaches step Fresh opened revised :=
  .step (revise "why") (Reaches.start.foldl (by decide)) (by decide)

/-- A conclusion, and two messages in reply to it that the agent answers with a question
each. -/
def asked : ExploreRound :=
  [post (request "kickoff" none []), submit (closing "kickoff"),
    post (request "one" (some (answer "first" none "kickoff")) []),
    submit (asking "one" "why" [topic]),
    post (request "two" (some (answer "second" none "kickoff")) []),
    submit (asking "two" "how" [])].foldl step opened

end Sample

end ProgressiveReviewer.Explore
