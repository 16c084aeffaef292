import ProgressiveReviewer.Explore.Coherence
import ProgressiveReviewer.Library.Untouched

/-! The reviewer's answers to the quiz of a conclusion (`review-explore/src/quiz.rs`): picks
and skips in any order, from any number of pages. -/

namespace ProgressiveReviewer.Explore

open Library

inductive QuizResponse where
  | skip
  | pick (item answer : Nat)
  deriving DecidableEq, Repr

/-- `usize::saturating_add(1)`. -/
def numbered (index : Nat) : Nat := min (index + 1) (2 ^ 64 - 1)

namespace QuizAnswers

def empty : QuizAnswers := ⟨[], false⟩

variable (answers : QuizAnswers)

def pick (item : Nat) : Option QuizPick := answers.picks.find? fun pick => pick.item = item

/-- The item the reviewer answers next in a quiz of `items` items. -/
def nextItem (items : Nat) : Option Nat :=
  if !answers.skipped ∧ answers.picks.length < items then some answers.picks.length else none

def record (quiz : List QuizItem) : QuizResponse → EStateM String QuizAnswers Bool
  | .skip => do
    let answers ← get
    let skips := !answers.skipped && decide (answers.picks.length < quiz.length)
    modify fun answers => { answers with skipped := answers.skipped || skips }
    return skips
  | .pick item answer => do
    let answers ← get
    match answers.pick item with
    | some earlier =>
      found (ensure (earlier.answer = answer)
        s!"quiz item {numbered item} has another answer already")
      return false
    | none =>
      found (ensure (!answers.skipped) "the reviewer skipped the quiz")
      found (ensure (item = answers.picks.length)
        s!"quiz item {numbered item} is not the next to answer")
      match quiz[item]? with
      | none => throw s!"the quiz has no item {numbered item}"
      | some options =>
        found (ensure (answer < options.answers.length)
          s!"quiz item {numbered item} has no option {numbered answer}")
        modify fun answers => { answers with
          picks := answers.picks ++ [⟨item, answer, answer = options.correct⟩] }
        return true

/-- What one response does. -/
inductive Recorded (quiz : List QuizItem) : QuizResponse → EStateM.Result String QuizAnswers Bool → Prop
  | picked {options : QuizItem} {answer : Nat} (going : answers.skipped = false)
      (held : quiz[answers.picks.length]? = some options)
      (option : answer < options.answers.length) :
      Recorded quiz (.pick answers.picks.length answer) (.ok true { answers with
        picks := answers.picks ++ [⟨answers.picks.length, answer, answer = options.correct⟩] })
  | skipped (going : answers.skipped = false) (left : answers.picks.length < quiz.length) :
      Recorded quiz .skip (.ok true { answers with skipped := true })
  | finished (ends : answers.nextItem quiz.length = none) : Recorded quiz .skip (.ok false answers)
  | repeated {item answer : Nat} (held : (answers.pick item).map (·.answer) = some answer) :
      Recorded quiz (.pick item answer) (.ok false answers)
  | refused (item answer : Nat) (error : String) :
      Recorded quiz (.pick item answer) (.error error answers)

theorem nextItem_eq_none {items : Nat} :
    answers.nextItem items = none ↔ answers.skipped = true ∨ items ≤ answers.picks.length := by
  simp only [nextItem, ite_eq_right_iff, reduceCtorEq, imp_false, not_and_or, Bool.not_eq_true,
    Bool.not_eq_false', not_lt]

theorem record_skip (quiz : List QuizItem) : record quiz .skip answers =
    .ok (!answers.skipped && decide (answers.picks.length < quiz.length))
      { answers with skipped :=
          answers.skipped || (!answers.skipped && decide (answers.picks.length < quiz.length)) } :=
  rfl

theorem record_cases (quiz : List QuizItem) (response : QuizResponse) :
    answers.Recorded quiz response (record quiz response answers) := by
  cases response with
  | skip =>
    rw [record_skip]
    by_cases ends : answers.nextItem quiz.length = none
    · have idle : (!answers.skipped && decide (answers.picks.length < quiz.length)) = false := by
        rcases answers.nextItem_eq_none.mp ends with early | all
        · rw [early, Bool.not_true, Bool.false_and]
        · rw [decide_eq_false (not_lt.mpr all), Bool.and_false]
      rw [idle, Bool.or_false]
      exact .finished ends
    · obtain ⟨going, left⟩ := not_or.mp (mt answers.nextItem_eq_none.mpr ends)
      rw [Bool.not_eq_true] at going
      rw [going, decide_eq_true (not_le.mp left)]
      exact .skipped going (not_le.mp left)
  | pick item answer =>
    rw [record, get_bind_run]
    cases held : answers.pick item with
    | some earlier =>
      dsimp only
      rw [found_ensure_bind]
      split_ifs with same
      · exact .repeated (by rw [held, Option.map_some, same])
      · exact .refused ..
    | none =>
      dsimp only
      rw [found_ensure_bind, found_ensure_bind]
      split_ifs with going next
      · subst next
        cases asked : quiz[answers.picks.length]? with
        | none => exact .refused ..
        | some options =>
          dsimp only
          rw [found_ensure_bind]
          split_ifs with option
          · exact .picked (by simpa using going) asked option
          · exact .refused ..
      · exact .refused ..
      · exact .refused ..

/-- The picks are of the first questions of the quiz in its order, each of an option that its
question has, and marked as its question says. -/
structure Holds (quiz : List QuizItem) : Prop where
  order : answers.picks.map (·.item) = List.range answers.picks.length
  within : answers.picks.length ≤ quiz.length
  marked : ∀ pick ∈ answers.picks, ∃ asked, quiz[pick.item]? = some asked ∧
    pick.answer < asked.answers.length ∧ (pick.correct = true ↔ pick.answer = asked.correct)

theorem Holds.empty (quiz : List QuizItem) : QuizAnswers.empty.Holds quiz where
  order := rfl
  within := Nat.zero_le _
  marked _ mem := absurd mem List.not_mem_nil

variable {answers}

theorem Holds.picked {quiz : List QuizItem} {options : QuizItem} {answer : Nat}
    (holds : answers.Holds quiz) (held : quiz[answers.picks.length]? = some options)
    (option : answer < options.answers.length) :
    Holds { answers with
      picks := answers.picks ++ [⟨answers.picks.length, answer, answer = options.correct⟩] } quiz where
  order := by
    rw [List.map_append, holds.order, List.length_append]
    exact List.range_succ.symm
  within := by
    obtain ⟨inside, -⟩ := List.getElem?_eq_some_iff.mp held
    rw [List.length_append]
    exact inside
  marked pick mem := by
    rcases List.mem_append.mp mem with mem | last
    · exact holds.marked pick mem
    · cases List.mem_singleton.mp last
      exact ⟨options, held, option, decide_eq_true_iff⟩

/-- What further responses may do to the answers of a quiz. -/
structure Extends (quiz : List QuizItem) (answers later : QuizAnswers) : Prop where
  kept : answers.picks <+: later.picks
  ended : answers.nextItem quiz.length = none → later = answers
  holds : answers.Holds quiz → later.Holds quiz

theorem Extends.refl (quiz : List QuizItem) (answers : QuizAnswers) : Extends quiz answers answers :=
  ⟨List.prefix_rfl, fun _ => rfl, id⟩

theorem Extends.trans {quiz : List QuizItem} {answers later last : QuizAnswers}
    (first : Extends quiz answers later) (rest : Extends quiz later last) :
    Extends quiz answers last where
  kept := first.kept.trans rest.kept
  ended ends := by
    have same := first.ended ends
    exact (rest.ended (by rw [same, ends])).trans same
  holds := rest.holds ∘ first.holds

/-- One response. -/
theorem extends_record (quiz : List QuizItem) (answers : QuizAnswers) (response : QuizResponse) :
    Extends quiz answers (stateAfter (record quiz response) answers) := by
  have cases := answers.record_cases quiz response
  unfold stateAfter
  generalize record quiz response answers = run at cases
  cases cases with
  | picked going held option =>
    refine ⟨List.prefix_append .., fun ends => ?_, fun holds => holds.picked held option⟩
    obtain ⟨inside, -⟩ := List.getElem?_eq_some_iff.mp held
    rcases answers.nextItem_eq_none.mp ends with early | all
    · exact absurd (going.symm.trans early) Bool.false_ne_true
    · exact absurd inside (not_lt.mpr all)
  | skipped going left =>
    refine ⟨List.prefix_rfl, fun ends => ?_, fun holds => ⟨holds.order, holds.within, holds.marked⟩⟩
    rcases answers.nextItem_eq_none.mp ends with early | all
    · exact absurd (going.symm.trans early) Bool.false_ne_true
    · exact absurd left (not_lt.mpr all)
  | finished => exact .refl ..
  | repeated => exact .refl ..
  | refused => exact .refl ..

theorem record_unchanged {quiz : List QuizItem} {answers : QuizAnswers} {response : QuizResponse}
    {kept : QuizAnswers} (idle : record quiz response answers = .ok false kept ∨
      ∃ error, record quiz response answers = .error error kept) : kept = answers := by
  have cases := answers.record_cases quiz response
  generalize record quiz response answers = run at cases idle
  rcases idle with rfl | ⟨error, rfl⟩ <;> cases cases <;> rfl

/-- A skip is the last response that does anything. -/
theorem ended_of_skip (quiz : List QuizItem) (answers : QuizAnswers) :
    (stateAfter (record quiz .skip) answers).picks = answers.picks ∧
      (stateAfter (record quiz .skip) answers).nextItem quiz.length = none := by
  have cases := answers.record_cases quiz .skip
  unfold stateAfter
  generalize record quiz .skip answers = run at cases
  cases cases with
  | skipped => exact ⟨rfl, (nextItem_eq_none _).mpr (.inl rfl)⟩
  | finished ends => exact ⟨rfl, ends⟩

end QuizAnswers

namespace Exploration

variable (exploration : Exploration)

/-- The answers to the quiz of a conclusion: none before the first response. -/
def answersTo (conclusion : String) : QuizAnswers :=
  (exploration.quizAnswers.lookup conclusion).getD .empty

/-- The quiz of the current conclusion. -/
def quiz : List QuizItem := (exploration.conclusion.map (·.quiz)).getD []

def withAnswers (conclusion : String) (answers : QuizAnswers) : Exploration :=
  { exploration with quizAnswers := exploration.quizAnswers.insert conclusion answers }

def answerQuiz (conclusion : String) (response : QuizResponse) :
    EStateM String Exploration Bool := do
  let exploration ← get
  found (ensure (exploration.conclusionRequest = some conclusion)
    "the quiz belongs to a conclusion that is no longer current")
  found (ensure (exploration.quiz ≠ []) "the conclusion has no quiz")
  onPart (answersTo · conclusion) (withAnswers · conclusion)
    (QuizAnswers.record exploration.quiz response)

/-- The round after responses, accepted or not. -/
def responded (calls : List (String × QuizResponse)) : Exploration :=
  calls.foldl (fun exploration call => stateAfter (answerQuiz call.1 call.2) exploration) exploration

theorem answersTo_withAnswers (conclusion other : String) (answers : QuizAnswers) :
    (exploration.withAnswers conclusion answers).answersTo other =
      if conclusion = other then answers else exploration.answersTo other := by
  simp only [answersTo, withAnswers, SortedMap.lookup_insert]
  split_ifs <;> rfl

theorem answerQuiz_run (conclusion : String) (response : QuizResponse) :
    (exploration.conclusionRequest = some conclusion ∧
      answerQuiz conclusion response exploration =
        onPart (answersTo · conclusion) (withAnswers · conclusion)
          (QuizAnswers.record exploration.quiz response) exploration) ∨
    (exploration.conclusionRequest ≠ some conclusion ∨ exploration.quiz = []) ∧
      ∃ error, answerQuiz conclusion response exploration = .error error exploration := by
  rw [answerQuiz, get_bind_run, found_ensure_bind, found_ensure_bind]
  split_ifs with current asked
  · exact .inl ⟨current, rfl⟩
  · exact .inr ⟨.inr (not_not.mp asked), _, rfl⟩
  · exact .inr ⟨.inl current, _, rfl⟩

/-- One response to a quiz, as the quizzes of all conclusions see it. -/
structure Follows (exploration later : Exploration) : Prop where
  rest : { later with quizAnswers := exploration.quizAnswers } = exploration
  extends_quiz : ∀ conclusion, QuizAnswers.Extends exploration.quiz
    (exploration.answersTo conclusion) (later.answersTo conclusion)
  stale : ∀ conclusion, exploration.conclusionRequest ≠ some conclusion →
    later.answersTo conclusion = exploration.answersTo conclusion

namespace Follows

variable {exploration}

theorem quiz_eq {later : Exploration} (follows : Follows exploration later) :
    later.quiz = exploration.quiz := by
  show quiz { later with quizAnswers := exploration.quizAnswers } = _
  rw [follows.rest]

theorem conclusionRequest_eq {later : Exploration} (follows : Follows exploration later) :
    later.conclusionRequest = exploration.conclusionRequest := by
  show conclusionRequest { later with quizAnswers := exploration.quizAnswers } = _
  rw [follows.rest]

theorem refl (exploration : Exploration) : Follows exploration exploration :=
  ⟨rfl, fun _ => .refl .., fun _ _ => rfl⟩

theorem trans {later last : Exploration} (first : Follows exploration later)
    (rest : Follows later last) : Follows exploration last where
  rest := by
    rw [← first.rest, ← rest.rest]
  extends_quiz conclusion := (first.extends_quiz conclusion).trans (by
    rw [← first.quiz_eq]
    exact rest.extends_quiz conclusion)
  stale conclusion late := (rest.stale conclusion (by rwa [first.conclusionRequest_eq])).trans
    (first.stale conclusion late)

end Follows

theorem stateAfter_answerQuiz {conclusion : String} {response : QuizResponse}
    (run : answerQuiz conclusion response exploration =
      onPart (answersTo · conclusion) (withAnswers · conclusion)
        (QuizAnswers.record exploration.quiz response) exploration) :
    stateAfter (answerQuiz conclusion response) exploration =
      exploration.withAnswers conclusion (stateAfter (QuizAnswers.record exploration.quiz response)
        (exploration.answersTo conclusion)) := by
  rw [← stateAfter_onPart (answersTo · conclusion) (withAnswers · conclusion)]
  simp only [stateAfter, run]

theorem follows_answerQuiz (conclusion : String) (response : QuizResponse) :
    Follows exploration (stateAfter (answerQuiz conclusion response) exploration) := by
  rcases exploration.answerQuiz_run conclusion response with ⟨current, run⟩ | ⟨-, error, run⟩
  · rw [exploration.stateAfter_answerQuiz run]
    refine ⟨rfl, fun other => ?_, fun other late => ?_⟩
    · rw [answersTo_withAnswers]
      split_ifs with same
      · rw [← same]
        exact QuizAnswers.extends_record ..
      · exact .refl ..
    · rw [answersTo_withAnswers, if_neg]
      rintro rfl
      exact late current
  · simp only [stateAfter, run]
    exact .refl exploration

theorem follows_responded (calls : List (String × QuizResponse)) :
    Follows exploration (exploration.responded calls) := by
  induction calls generalizing exploration with
  | nil => exact .refl exploration
  | cons call calls ih => exact (exploration.follows_answerQuiz call.1 call.2).trans (ih _)

theorem responded_append (calls later : List (String × QuizResponse)) :
    exploration.responded (calls ++ later) = (exploration.responded calls).responded later :=
  List.foldl_append

/-- A response that is not accepted, or that the round already holds. -/
theorem answerQuiz_unchanged {conclusion : String} {response : QuizResponse} {kept : Exploration}
    (idle : answerQuiz conclusion response exploration = .ok false kept ∨
      ∃ error, answerQuiz conclusion response exploration = .error error kept) :
    { kept with quizAnswers := exploration.quizAnswers } = exploration ∧
      ∀ other, kept.answersTo other = exploration.answersTo other := by
  rcases exploration.answerQuiz_run conclusion response with ⟨-, run⟩ | ⟨-, error, run⟩
  · have same : kept = exploration.withAnswers conclusion (exploration.answersTo conclusion) := by
      rw [run, onPart] at idle
      cases last : QuizAnswers.record exploration.quiz response (exploration.answersTo conclusion) with
      | ok result answers =>
        simp only [last, EStateM.Result.ok.injEq, reduceCtorEq, exists_false, or_false] at idle
        have held : answers = exploration.answersTo conclusion :=
          QuizAnswers.record_unchanged (.inl (by rw [last, idle.1]))
        rw [← idle.2, held]
      | error error answers =>
        simp only [last, EStateM.Result.error.injEq, reduceCtorEq, false_or] at idle
        obtain ⟨-, -, same⟩ := idle
        have held : answers = exploration.answersTo conclusion :=
          QuizAnswers.record_unchanged (.inr ⟨error, last⟩)
        rw [← same, held]
    rw [same]
    refine ⟨rfl, fun other => ?_⟩
    rw [answersTo_withAnswers]
    split_ifs with same
    · rw [same]
    · rfl
  · rw [run] at idle
    obtain never | ⟨error, same⟩ := idle
    · cases never
    · cases same
      exact ⟨rfl, fun _ => rfl⟩

/-- After a skip there are no more picks: it ends the quiz, or the round does not take it, nor
any response after it. -/
theorem picks_of_skip (conclusion : String) (later : List (String × QuizResponse)) :
    ((exploration.responded ((conclusion, .skip) :: later)).answersTo conclusion).picks =
      (exploration.answersTo conclusion).picks := by
  have follows := exploration.follows_responded ((conclusion, .skip) :: later)
  rcases exploration.answerQuiz_run conclusion .skip with ⟨-, run⟩ | ⟨late | nothing, -⟩
  · obtain ⟨same, ends⟩ :=
      QuizAnswers.ended_of_skip exploration.quiz (exploration.answersTo conclusion)
    have rest := (follows_responded (stateAfter (answerQuiz conclusion .skip) exploration) later)
    rw [stateAfter_answerQuiz _ run] at rest
    have after := rest.extends_quiz conclusion
    rw [answersTo_withAnswers, if_pos rfl] at after
    rw [responded, List.foldl_cons, stateAfter_answerQuiz _ run]
    exact (congrArg QuizAnswers.picks (after.ended ends)).trans same
  · rw [follows.stale conclusion late]
  · rw [(follows.extends_quiz conclusion).ended]
    exact (QuizAnswers.nextItem_eq_none _).mpr (.inr (by rw [nothing]; exact Nat.zero_le _))

/-- Picks are of a first part of the quiz in its order, marked as the quiz says; they stay as
they are whatever comes later, and after a skip there are no more. What is refused changes
nothing. -/
theorem quiz_final (conclusion : String) (calls : List (String × QuizResponse))
    (begins : exploration.quizAnswers.lookup conclusion = none) :
    ((exploration.responded calls).answersTo conclusion).Holds exploration.quiz ∧
    (∀ later, ((exploration.responded calls).answersTo conclusion).picks <+:
      ((exploration.responded (calls ++ later)).answersTo conclusion).picks) ∧
    (∀ later, ((exploration.responded (calls ++ (conclusion, .skip) :: later)).answersTo conclusion).picks =
      ((exploration.responded calls).answersTo conclusion).picks) ∧
    ∀ named response error kept,
      answerQuiz named response (exploration.responded calls) = .error error kept →
        { kept with quizAnswers := (exploration.responded calls).quizAnswers } =
            exploration.responded calls ∧
          ∀ other, kept.answersTo other = (exploration.responded calls).answersTo other := by
  have follows := exploration.follows_responded calls
  refine ⟨(follows.extends_quiz conclusion).holds ?_, fun later => ?_, fun later => ?_,
    fun named response error kept refused => answerQuiz_unchanged _ (.inr ⟨error, refused⟩)⟩
  · rw [answersTo, begins]
    exact .empty _
  · rw [responded_append]
    exact ((follows_responded _ later).extends_quiz conclusion).kept
  · rw [responded_append, picks_of_skip]

end Exploration

namespace Sample

def quizzed : Conclusion := ⟨"Done", "", "", [⟨"Which?", ["this", "that"], 1, "", [], ""⟩], none⟩

def concluded : Exploration :=
  { Exploration.new "round" comparison with
    conclusion := some quizzed
    conversation := [⟨none, { closing "turn" with conclusion := some quizzed }, none⟩] }

/-- A wrong pick, another pick of the same item and a skip. -/
theorem quiz_final_wrong :
    (concluded.answersTo "turn" = .empty) ∧
      ∀ later, ((concluded.responded ([("turn", .pick 0 0), ("turn", .pick 0 1)] ++
        ("turn", .skip) :: later)).answersTo "turn").picks = [⟨0, 0, false⟩] := by
  obtain ⟨-, -, ended, -⟩ :=
    concluded.quiz_final "turn" [("turn", .pick 0 0), ("turn", .pick 0 1)] rfl
  exact ⟨rfl, fun later => (ended later).trans (by decide)⟩

end Sample

end ProgressiveReviewer.Explore
