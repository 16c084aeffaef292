import ProgressiveReviewer.Explore.Agenda

/-! What a round checks of a turn before it accepts it
(`review-explore/src/validation.rs`, `drawing_board.rs`, `quiz.rs`, `design.rs`,
`consequence.rs`, `challenger.rs`, `choices.rs`, `not_relevant.rs`). -/

namespace ProgressiveReviewer.Explore

open Library Hunks Marks

namespace Alternative

/-- The parenthesised mark that ends a choice's text when the text says that the choice
is recommended. The text is read from its end. -/
def recommendedMark (world : World) (choice : Alternative) : Option String :=
  let text := trimEnd ((trimEnd choice.text.toList).reverse.dropWhile
    fun char => char == '.' || char == '!').reverse
  match text.reverse with
  | ')' :: before =>
    if '(' ∈ before then
      let inside := trimChars (before.takeWhile (· ≠ '(')).reverse
      let mark := "recommended".toList
      if (inside.take mark.length).map Char.toLower = mark ∧
          ((inside.drop mark.length).head?.all fun next =>
            !world.alphanumeric next && !isWhitespace next)
      then some (String.ofList ('(' :: ((before.takeWhile (· ≠ '(')).reverse ++ [')'])))
      else none
    else none
  | _ => none

end Alternative

section Checks

variable (world : World) (comparison : Comparison)

namespace Assessments

def validateLens (lens : Consequence) : Except String Unit :=
  ensure (!isBlank lens.summary && (!lens.evidence.isEmpty || !lens.unknowns.isEmpty) &&
      lens.unknowns.all (!isBlank ·) && lens.evidence.all (comparison.validateEvidence world))
    "Assessments need a reason and valid evidence, or explicit unknowns"

def validate (assessments : Assessments) : Except String Unit := do
  validateLens world comparison assessments.reversibility
  validateLens world comparison assessments.blastRadius
  ensure (¬(assessments.door = .oneWay ∨ assessments.door = .twoWay) ∨
      assessments.reversibility.evidence ≠ [])
    "A known door assessment needs evidence; otherwise use unknown"
  ensure (assessments.door ≠ .unknown ∨ assessments.reversibility.unknowns ≠ [])
    "An unknown door must name the missing evidence"

end Assessments

namespace QuizItem

def validate (item : QuizItem) : Except String Unit := do
  ensure ([item.question, item.why, item.level].all (!isBlank ·))
    "question, why and level need text"
  ensure ((2 ≤ item.answers.length ∧ item.answers.length ≤ 4) ∧
      item.answers.all (!isBlank ·) ∧
      (item.answers.map fun answer => world.lowercase (trim answer)).Nodup)
    "answers needs two to four distinct options"
  ensure (item.correct < item.answers.length)
    "correct must be the zero-based index of one of its answers"
  ensure (item.proof ≠ [] ∧ item.proof.all fun proof =>
      proof.location.lines.isSome && comparison.validateEvidence world proof)
    ("proof needs the lines that establish the correct answer: valid paths and line " ++
      "ranges, each with notes")

end QuizItem

namespace Conclusion

/-- A quiz of any number of items, or an empty quiz that says why it is empty. -/
def validateQuiz (conclusion : Conclusion) : Except String Unit := do
  let reason := conclusion.quizEmptyReason.any (!isBlank ·)
  if conclusion.quiz = [] then
    ensure reason ("An empty quiz needs quiz_empty_reason: one sentence on why the change has " ++
      "nothing at whiteboard level")
  else
    ensure (!reason)
      "quiz_empty_reason explains an empty quiz; leave it null when the quiz has items"
    conclusion.quiz.zipIdx.forM fun (item, index) =>
      (item.validate world comparison).mapError fun error =>
        "Quiz item " ++ toString (index + 1) ++ ": " ++ error

def validate (conclusion : Conclusion) : Except String Unit := do
  ensure (!isBlank conclusion.summary) "Conclusion summary is required"
  conclusion.validateQuiz world comparison

end Conclusion

namespace NotRelevantMark

def validate (mark : NotRelevantMark) : Except String Unit := do
  let location := mark.location.display
  ensure mark.reason.isSome
    s!"not_relevant {location} needs a reason: removed_code, tested_mechanics or follows_code"
  match mark.test with
  | none =>
    ensure (mark.reason ≠ some .testedMechanics)
      (s!"not_relevant {location} is tested_mechanics and needs `test`, the path and " ++
        "lines of a test that covers it")
  | some test =>
    let shown := displayPath test.path ++ " " ++ test.lines.display
    ensure (comparison.validateLocation world ⟨test.path, .new, some test.lines⟩)
      s!"not_relevant {location}: its test {shown} does not exist at the checkpoint"

end NotRelevantMark

end Checks

namespace Design

/-- A thesis is there and on one line. -/
def isOneLine (thesis : String) : Bool := !isBlank thesis && !(trim thesis).toList.contains '\n'

def parts (design : Design) : List DesignPart :=
  [design.overview, design.dataFlow, design.algorithm, design.alternatives]

def validate (design : Design) : Except String Unit := do
  ensure (design.thesis.any isOneLine)
    "The design needs a thesis: the change in one sentence, on one line"
  ensure (design.parts.all fun part => part.thesis.any isOneLine)
    "Every part of design needs a thesis: the part in one sentence, on one line"
  ensure (design.parts.all fun part => !isBlank part.body)
    "Every part of design needs text; say so when a part does not apply"

end Design

def ChallengerProposal.validate (proposal : ChallengerProposal) : Except String Unit := do
  let title := trim proposal.title
  ensure (title ≠ "") "Every challenger proposal needs a title"
  ensure (proposal.result ≠ .retired ∨ proposal.reason.any (!isBlank ·))
    (s!"challenger proposal \"{title}\" is retired and needs `reason`, the fact that " ++
      "settles it and the lines that show it")

/-- The shortest glossary term, in characters. -/
def termShortest : Nat := 2

/-- The longest glossary term, in characters. -/
def termLength : Nat := 60

/-- The longest definition, in characters. -/
def definitionLength : Nat := 300

/-- The most terms a round's glossary holds. -/
def mostTerms : Nat := 100

/-- Whether the page would take two terms for one. -/
def sameTerm (world : World) (a b : String) : Bool :=
  (splitWhitespace a).map world.lowercase = (splitWhitespace b).map world.lowercase

/-- A term is a short phrase on one line, and its definition one sentence. -/
def validateTerm (world : World) (term definition : String) : Except String Unit := do
  let quoted := world.quoted term
  ensure (trim term = term ∧ (termShortest ≤ term.length ∧ term.length ≤ termLength) ∧
      ¬term.toList.any isControl)
    (s!"Glossary term {quoted} must be a word or a short phrase on one line, without spaces " ++
      s!"around it, of {termShortest} to {termLength} characters")
  ensure (!isBlank definition ∧ definition.length ≤ definitionLength)
    (s!"The definition of glossary term {quoted} must be one plain sentence of at most " ++
      s!"{definitionLength} characters")

namespace Exploration

variable (world : World) (exploration : Exploration)

/-- Whether the agent works on a human answer. -/
def answered : Bool := exploration.outstandingAnswer.isSome

/-- A turn at the drawing board concludes with the changes to implement, and nothing
else. -/
def validateDrawingBoard (update : InterviewUpdate) : Except String Unit := do
  if exploration.outstanding.any (·.atDrawingBoard) then
    match update.conclusion with
    | none =>
      .error "The reviewer sent you back to the drawing board: conclude with submit_conclusion"
    | some conclusion =>
      ensure (!isBlank conclusion.toBeImplemented)
        "List the changes the design needs in to_be_implemented"
      ensure (conclusion.quiz = []) "The quiz waits for the new design: leave quiz empty"
      ensure update.interpretation.isNone
        "Back to the drawing board decides no topic: leave interpretation null"
      ensure (update.reviewed = [] ∧ update.reopened = [] ∧ update.notRelevant = [])
        "The code will change: leave reviewed, reopened and not_relevant empty"

def validateInterpretation (update : InterviewUpdate) : Except String Unit :=
  match exploration.outstandingAnswer, update.interpretation with
  | none, none => .ok ()
  | some answer, none =>
    ensure (answer.option.all (·.outcome = .«open») ∨ answer.text ≠ "")
      "An explicit decision needs an interpretation"
  | some answer, some interpretation => do
    ensure answer.question.isSome "Conversation context is not a policy decision"
    ensure (interpretation.answer = answer.id ∧ !isBlank interpretation.recap)
      "Interpretation must reference the exact submitted answer"
    ensure (answer.text ≠ "" ∨ answer.option.all (interpretation.status = ·.outcome))
      "An explicit choice must keep its stated outcome"
    ensure (interpretation.followUps = [] ∨ interpretation.status = .needsFollowUp)
      "Required changes must remain follow-ups"
  | none, some _ =>
    .error "An interpretation is required only for the submitted human answer"

/-- The first question comes after the design of the change, and only the first turn
explains it. -/
def validateDesign (update : InterviewUpdate) : Except String Unit :=
  let kickoff := exploration.outstanding.any (·.isKickoff)
  match update.design with
  | none =>
    ensure (!kickoff || update.next.isNone)
      "The first question comes after the design of the change: fill design"
  | some design => do
    ensure kickoff
      "Only the first turn explains the design; leave design null and correct it in reply"
    design.validate

def validateReply (update : InterviewUpdate) : Except String Unit := do
  if exploration.answered then
    ensure (update.reply.isSome || update.conclusion.isSome)
      "Respond directly to the reviewer contribution"
  ensure (update.reply.all fun reply => !isBlank reply.text &&
      reply.evidence.all (exploration.comparison.validateEvidence world))
    "Direct reply needs text and valid evidence"

def validateTopics (ids : List String) : List Topic → Except String Unit
  | [] => .ok ()
  | topic :: topics => do
    ensure (topic.id ≠ "") "A topic needs an ID"
    ensure (topic.id ∉ ids) s!"Topic {topic.id} is sent twice: send it once"
    ensure (!isBlank topic.title) s!"Topic {topic.id} needs a title"
    ensure (topic.entries.all (exploration.comparison.validateLocation world))
      s!"Topic {topic.id} references an invalid code location"
    ensure ((exploration.topics.lookup topic.id).all fun previous =>
        previous.status = .«open» || previous.sameButStatus topic)
      s!"Topic {topic.id} is settled and cannot be rewritten: leave it out of topics"
    validateTopics (topic.id :: ids) topics

def validateTerms (terms : List String) : List (String × String) → Except String Unit
  | [] => .ok ()
  | (term, definition) :: rest => do
    validateTerm world term definition
    match terms.find? fun other => sameTerm world other term && other ≠ term with
    | some same =>
      let quoted := world.quoted term
      let other := world.quoted same
      .error (s!"Glossary term {quoted} differs from {other} only by case or spaces: send one " ++
        "of them, as the page marks a term whatever its case and spaces")
    | none => validateTerms terms rest

def validateGlossary (glossary : SortedMap String String) : Except String Unit := do
  let all := exploration.glossary.keys ++ glossary.keys
  validateTerms world all glossary.entries
  let terms := all.dedup.length
  ensure (terms ≤ mostTerms)
    (s!"The glossary would hold {terms} terms, above {mostTerms}: keep the terms a reviewer new " ++
      "to the code needs")

def validateMarks (update : InterviewUpdate) : Except String Unit := do
  ensure ((update.reviewed = [] ∧ update.reopened = []) ∨ exploration.answered)
    "reviewed and reopened follow a human answer; this turn has none to mark lines from"
  ensure ((update.reviewed ++ update.reopened ++ update.notRelevant.map (·.location)).all
      (exploration.comparison.validateMark world))
    ("reviewed, reopened and not_relevant need changed paths, on the side that has them, " ++
      "with valid lines")
  update.notRelevant.forM fun mark => mark.validate world exploration.comparison

/-- Only a round with a challenger reports its proposals. -/
def validateChallengerProposals (update : InterviewUpdate) : Except String Unit := do
  ensure (exploration.challenger ∨ update.challengerProposals = [])
    "challenger_proposals belong to a round with a challenger; this round has none"
  update.challengerProposals.forM fun proposal => proposal.validate

/-- A question about someone else's change can be left to its author. -/
def validateAskAuthor (question : Question) : Except String Unit :=
  ensure (exploration.author = .reviewer ∨ question.alternatives.any fun choice =>
      choice.id = askAuthor && choice.outcome = .«open»)
    (s!"In a review of someone else's change, every question offers the choice \"{askAuthor}\", " ++
      "with outcome open: \"Ask the author: \" and the question to ask them")

/-- Whether the answer the agent works on answers a question of the topic. -/
def answersOn (topic : String) : Bool :=
  exploration.outstandingAnswer.any fun answer => answer.question.any (·.topic = topic)

def questionTopicStatus (topic : String) (update : InterviewUpdate) : Option TopicStatus :=
  match exploration.answersOn topic, update.interpretation with
  | true, some interpretation => some interpretation.status
  | _, _ =>
    (exploration.topicStatus topic).or
      (if update.topics.any (·.id = topic) then some .«open» else none)

def validateChoices (question : Question) : Except String Unit := do
  ensure ((2 ≤ question.alternatives.length ∧ question.alternatives.length ≤ 5) ∧
      (question.choices.all fun option => option.id ≠ "" && !isBlank option.text) ∧
      (question.choices.map (·.id)).Nodup ∧
      (question.choices.map fun option => world.lowercase (trim option.text)).Nodup)
    ("Every question needs two to five distinct choices with unique IDs and text; None of the " ++
      "above is provided by the reviewer")
  match question.alternatives.findSome? fun choice =>
      (choice.recommendedMark world).map fun mark => (choice.id, mark) with
  | none => .ok ()
  | some (choice, mark) =>
    .error (s!"Choice \"{choice}\" says in its text that it is recommended: remove \"{mark}\" " ++
      "from its text. A choice's text never says that it is recommended, preferred or the " ++
      "default; the recommendation goes only in its recommendation field")

def validateLifecycle (question : Question) (update : InterviewUpdate) : Except String Unit := do
  let agenda := (update.agenda.find? fun change => change.topic = question.topic).or
    (exploration.agendaChange question.topic)
  ensure (¬agenda.any (·.action.closes)) "Next question belongs to an inactive agenda topic"
  ensure (¬(update.interpretation.any (·.status ≠ .«open») ∧ exploration.answersOn question.topic))
    "Do not ask again on a topic just decided"
  ensure (exploration.questionTopicStatus question.topic update = some .«open» ∨
      agenda.any (·.action = .reconsider))
    "Agent cannot reopen a settled topic without reconsidering it"

def validateQuestion (question : Question) (update : InterviewUpdate) : Except String Unit := do
  ensure (question.id ≠ "" ∧ 0 < question.version ∧ !isBlank question.text)
    "Question identity and text are required"
  ensure (exploration.topics.contains question.topic ∨
      update.topics.any (·.id = question.topic))
    "Question has an unknown topic"
  ensure (¬exploration.questions.any fun old => old.id = question.id &&
      (question.version ≤ old.version || old.topic ≠ question.topic))
    "A displayed question version is immutable"
  ensure (question.evidence ≠ [] ∧ question.evidence.all fun evidence =>
      exploration.comparison.validateEvidence world evidence && !isBlank evidence.notes)
    "Question evidence needs valid sources/ranges and nonempty notes"
  ensure (question.evidence.map (·.location)).Nodup
    ("Combine duplicate snippets; each displayed excerpt must add distinct decision-relevant " ++
      "information")
  validateChoices world question
  exploration.validateAskAuthor question
  question.assessments.forM fun assessments =>
    assessments.validate world exploration.comparison
  exploration.validateLifecycle question update

def validate (update : InterviewUpdate) : Except String Unit := do
  ensure (update.checkpoint = exploration.comparison.checkpoint)
    "Response checkpoint does not match"
  ensure (update.next.isSome ≠ update.conclusion.isSome)
    "Return one question or an explicit closing state"
  exploration.validateDrawingBoard update
  exploration.validateInterpretation update
  update.conclusion.forM fun conclusion => conclusion.validate world exploration.comparison
  exploration.validateDesign update
  exploration.validateReply world update
  exploration.validateTopics world [] update.topics
  exploration.validateGlossary world update.glossary
  exploration.validateAgenda world update
  exploration.validateMarks world update
  exploration.validateChallengerProposals update
  update.next.forM fun question => exploration.validateQuestion world question update

end Exploration

end ProgressiveReviewer.Explore
