import ProgressiveReviewer.Explore.Versions
import ProgressiveReviewer.Library.Arranging
import ProgressiveReviewer.Page.Session

/-! What a blind question keeps from the reviewer. Two rounds that differ only in the alternatives
of the question that waits show the same page until the first pick. -/

namespace ProgressiveReviewer.Explore

open Library

/-- An alternative without the agent's recommendation. -/
def Alternative.silent (alternative : Alternative) : Alternative :=
  { alternative with recommendation := none }

/-- The same question with other alternatives. -/
def Question.offering (question : Question) (alternatives : List Alternative) : Question :=
  { question with alternatives := alternatives }

/-- The turn, had it asked another question. -/
def ConversationTurn.posing (turn : ConversationTurn) (question : Question) : ConversationTurn :=
  { turn with update := { turn.update with next := some question } }

namespace Exploration

variable (exploration : Exploration)

/-- The round as it would be had the agent asked another question last. -/
def posing (question : Question) : Exploration :=
  { exploration with
    questions := exploration.questions.dropLast ++ [question]
    conversation := exploration.conversation.dropLast ++
      exploration.conversation.getLast?.toList.map fun turn => turn.posing question }

/-- The question that the last turn asked, with the turns before. -/
structure Asks (earlier : List ConversationTurn) (turn : ConversationTurn) (question : Question) :
    Prop where
  conversation : exploration.conversation = earlier ++ [turn]
  questions : exploration.questions = earlier.filterMap (·.update.next) ++ [question]
  next : turn.update.next = some question
  /-- Of two versions of a question the later is the greater. -/
  newest : ∀ old ∈ earlier.filterMap (·.update.next), old.id = question.id →
    old.version < question.version

variable {exploration} {earlier : List ConversationTurn} {turn : ConversationTurn}
  {question : Question}

namespace Asks

variable (asks : exploration.Asks earlier turn question)

include asks

theorem posing {other : Question} (same : other.id = question.id ∧ other.version = question.version) :
    (exploration.posing other).Asks earlier (turn.posing other) other where
  conversation := by
    simp only [Exploration.posing, asks.conversation, List.dropLast_concat, List.getLast?_concat]
    rfl
  questions := by
    simp only [Exploration.posing, asks.questions, List.dropLast_concat]
  next := rfl
  newest := fun old mem id => same.2 ▸ asks.newest old mem (id.trans same.1)

/-- The questions before are other versions. -/
theorem takeWhile_questions :
    exploration.questions.takeWhile (fun posted => posted ≠ question) =
      earlier.filterMap (·.update.next) := by
  rw [asks.questions, List.takeWhile_append_of_pos fun old mem => ?_]
  · simp
  · refine decide_eq_true fun same => ?_
    exact absurd (asks.newest old mem (congrArg _ same)) (by simp [same])

/-- Only the last step of the rail holds the question. -/
theorem exists_steps {other : Question}
    (same : other.id = question.id ∧ other.version = question.version) :
    ∃ front versions, (∀ step ∈ front, step.number ≠ front.length + 1) ∧
      QuestionStep.of exploration = front ++ [⟨front.length + 1, versions ++ [question]⟩] ∧
      QuestionStep.of (exploration.posing other) =
        front ++ [⟨front.length + 1, versions ++ [other]⟩] := by
  have new : question ∉ earlier.filterMap (·.update.next) := fun held =>
    absurd (asks.newest question held rfl) (Nat.lt_irrefl _)
  let alike (old later : Question) : Bool := old.id = later.id
  obtain ⟨groups, group, split, split'⟩ := splitBy_concat (r := alike) (b := other)
    ⟨fun x => by simp only [alike, same.1], fun x => by simp only [alike, same.1]⟩ new
  have steps : ∀ e : Exploration, ∀ last, e.questions.splitBy alike = groups ++ [last] →
      QuestionStep.of e = (groups.zipIdx.map fun group => ⟨group.2 + 1, group.1⟩) ++
        [⟨groups.length + 1, last⟩] := fun e last split => by
    have parts : QuestionStep.of e = (e.questions.splitBy alike).zipIdx.map
        fun group => ⟨group.2 + 1, group.1⟩ := rfl
    rw [parts, split, List.zipIdx_append, List.map_append, Nat.zero_add]
    rfl
  refine ⟨groups.zipIdx.map fun group => ⟨group.2 + 1, group.1⟩, group,
    fun step mem => ?_, ?_, ?_⟩
  · obtain ⟨⟨versions, index⟩, entry, rfl⟩ := List.mem_map.mp mem
    rw [List.length_map, List.length_zipIdx]
    have := (List.mem_zipIdx' entry).1
    dsimp only
    omega
  · rw [steps exploration _ (asks.questions ▸ split), List.length_map, List.length_zipIdx]
  · rw [steps _ _ ((asks.posing same).questions ▸ split'), List.length_map, List.length_zipIdx]

end Asks

end Exploration

def ExploreRound.posing (round : ExploreRound) (question : Question) : ExploreRound :=
  { round with exploration := round.exploration.posing question }

/-- The round of a run asks the question of its last turn. -/
theorem ExploreRound.asks_of_reaches {start round : ExploreRound} (fresh : start.IsNew)
    (run : Reaches step Fresh start round) {turn : ConversationTurn} {question : Question}
    (last : round.exploration.conversation.getLast? = some turn)
    (next : turn.update.next = some question) :
    round.exploration.Asks round.exploration.conversation.dropLast turn question := by
  have conversation := (List.dropLast_append_getLast? turn last).symm
  have replayed := (coherent_of_reaches fresh run).questions
  have versioned := versioned_of_reaches fresh run
  have questions : round.exploration.questions =
      round.exploration.conversation.filterMap (·.update.next) := replayed
  rw [conversation, List.filterMap_append, List.filterMap_cons, next] at questions
  rw [questions] at versioned
  exact {
    conversation, questions, next
    newest := fun old mem same =>
      ((List.pairwise_append.mp versioned).2.2 old mem question (.head _) same).2 }

namespace Exploration.Asks

variable {round : ExploreRound} {earlier : List ConversationTurn} {turn : ConversationTurn}
  {question other : Question}

/-- What is kept of the turns of a round, when it says nothing of what they asked. -/
theorem kept_posing {α : Type} (asks : round.exploration.Asks earlier turn question)
    (same : other.id = question.id ∧ other.version = question.version)
    (keep : List ConversationTurn → α)
    (blind : ∀ earlier turn question, keep (earlier ++ [turn.posing question]) =
      keep (earlier ++ [turn])) :
    keep (round.posing other).exploration.conversation = keep round.exploration.conversation := by
  rw [ExploreRound.posing, (asks.posing same).conversation, asks.conversation, blind]

theorem earlierQuestion_posing (asks : round.exploration.Asks earlier turn question)
    (same : other.id = question.id ∧ other.version = question.version) (step : QuestionStep) :
    EarlierQuestion.of (round.posing other) step = EarlierQuestion.of round step := by
  have after (answer : String) :
      ((round.posing other).exploration.turnAfter answer).bind (·.update.reply) =
        (round.exploration.turnAfter answer).bind (·.update.reply) := by
    let keep (turns : List ConversationTurn) : Option Reply :=
      (turns.find? fun turn => turn.answer = some answer).bind (·.update.reply)
    refine asks.kept_posing same keep fun earlier turn question => ?_
    simp only [keep, List.find?_append, List.find?_singleton, ConversationTurn.posing]
    cases earlier.find? _ <;> split_ifs <;> rfl
  have marks : (round.posing other).marksAppliedBy step.answeredBy =
      round.marksAppliedBy step.answeredBy := by
    let keep (turns : List ConversationTurn) : List TurnMarks :=
      (turns.filterMap fun turn => round.marks.lookup turn.update.request).filter fun marks =>
        marks.answer.any fun id =>
          round.exploration.answers.any fun answer => answer.id = id && step.answeredBy answer
    refine asks.kept_posing same keep fun earlier turn question => ?_
    simp only [keep, List.filterMap_append, ConversationTurn.posing]
    rfl
  unfold EarlierQuestion.of
  dsimp only
  rw [marks]
  cases step.question with
  | none => rfl
  | some latest =>
    have answer : step.answer (round.posing other).exploration = step.answer round.exploration := rfl
    rw [answer]
    cases step.answer round.exploration with
    | none => rfl
    | some answer =>
      dsimp only
      rw [after]
      rfl

theorem design_posing (asks : round.exploration.Asks earlier turn question)
    (same : other.id = question.id ∧ other.version = question.version) :
    (round.posing other).exploration.design = round.exploration.design := by
  let keep (turns : List ConversationTurn) : Option Design :=
    (turns.head?.filter (·.answer.isNone)).bind (·.update.design)
  refine asks.kept_posing same keep fun earlier turn question => ?_
  cases earlier with
  | nil =>
    obtain ⟨answer, update, revision⟩ := turn
    cases answer <;> rfl
  | cons => rfl

/-- The round stands at its last question. -/
theorem position_of (asks : round.exploration.Asks earlier turn question)
    (going : turn.update.conclusion = none) (steps : List QuestionStep) (delivering : Option String) :
    Position.of round.exploration steps delivering =
      ⟨Position.activityOf round.exploration delivering, .question, .question steps.length⟩ := by
  simp only [Position.of, Position.new, Position.latestOf, asks.conversation,
    List.getLast?_concat, going]

theorem filter_passed {front : List QuestionStep} {final : QuestionStep} {activity : Activity}
    (before : ∀ step ∈ front, step.number ≠ front.length + 1) (last : final.number = front.length + 1) :
    (front ++ [final]).filter
      (Position.passed ⟨activity, .question, .question (front ++ [final]).length⟩) = front := by
  rw [List.length_append, List.length_singleton, List.filter_append, List.filter_eq_self.mpr,
    List.filter_eq_nil_iff.mpr, List.append_nil]
  · simp [Position.passed, last]
  · intro step mem
    simpa [Position.passed] using (before step mem).symm

/-- The overview tells nothing of the question that waits but that it waits; the decisions it lists
are those of answered questions, which no page shows before the conclusion. -/
theorem overview_posing (asks : round.exploration.Asks earlier turn question)
    (same : other.id = question.id ∧ other.version = question.version)
    (going : turn.update.conclusion = none) (delivering : Option String) :
    ∃ decisions, RoundOverview.of (round.posing other) delivering =
      { RoundOverview.of round delivering with decisions := decisions } := by
  obtain ⟨front, versions, before, steps, steps'⟩ := asks.exists_steps same
  have asks' : (round.posing other).exploration.Asks earlier _ other := asks.posing same
  have steps' : QuestionStep.of (round.posing other).exploration = _ := steps'
  have filled (e : Exploration) (turn : ConversationTurn) (held : e.conversation = earlier ++ [turn]) :
      e.conversation.isEmpty = false := by rw [held]; simp
  refine ⟨(RoundOverview.of (round.posing other) delivering).decisions, ?_⟩
  have rail : (RoundOverview.of (round.posing other) delivering).rail =
      (RoundOverview.of round delivering).rail := by
    simp only [RoundOverview.of, asks.design_posing same, filled _ _ asks.conversation,
      filled _ _ asks'.conversation, asks.position_of going, asks'.position_of going, steps, steps',
      List.length_append, List.length_singleton]
    rfl
  have past : (RoundOverview.of (round.posing other) delivering).earlier =
      (RoundOverview.of round delivering).earlier := by
    simp only [RoundOverview.of, asks.position_of going, asks'.position_of going, steps, steps',
      filter_passed before]
    exact List.filterMap_congr fun step _ => asks.earlierQuestion_posing same step
  have title : (RoundOverview.of (round.posing other) delivering).title =
      (RoundOverview.of round delivering).title := by
    simp only [RoundOverview.of, asks.position_of going, asks'.position_of going, steps, steps',
      List.length_append, List.length_singleton]
    rfl
  have glossary : (RoundOverview.of (round.posing other) delivering).glossary =
      (RoundOverview.of round delivering).glossary := rfl
  dsimp only
  rw [← rail, ← past, ← title, ← glossary]

end Exploration.Asks

end ProgressiveReviewer.Explore

namespace ProgressiveReviewer.Page

open Library Explore Marks Tallies

/-- The tally reads of the question only what it cites. -/
theorem tally_posing (files : List FileMarks) (round : ExploreRound) {update : InterviewUpdate}
    {question other : Question} (asks : update.next = some question)
    (cited : other.evidence = question.evidence) (markable : MarkableFiles) :
    MarkTally.of files (some (round.posing other)) (some { update with next := some other }) markable =
      MarkTally.of files (some round) (some update) markable := by
  have cites (file : ChangedFile) :
      (⟨{ update with next := some other }, markable⟩ : Answering).cites file =
        (⟨update, markable⟩ : Answering).cites file := by
    simp only [Answering.cites, asks, Option.any_some, cited]
  refine congrArg (MarkTally.ofFiles · true) (List.map_congr_left fun file _ => ?_)
  have whole : file.tally (some ⟨{ update with next := some other }, markable⟩)
      ⟨some (round.posing other)⟩ =
        { file.tally (some ⟨update, markable⟩) ⟨some round⟩ with
          cited := (⟨{ update with next := some other }, markable⟩ : Answering).cites file.file } := rfl
  refine whole.trans ?_
  rw [cites]
  rfl

/-- What the turn said back, and the version that its question replaced. -/
theorem response_posing {round : ExploreRound} {earlier : List ConversationTurn}
    {turn : ConversationTurn} {question other : Question}
    (asks : round.exploration.Asks earlier turn question)
    (same : other.id = question.id ∧ other.version = question.version) :
    TurnResponse.of (round.posing other).exploration (turn.posing other) =
      TurnResponse.of round.exploration turn := by
  have asks' : (round.posing other).exploration.Asks earlier _ other := asks.posing same
  have revision : (TurnResponse.of (round.posing other).exploration
      (turn.posing other)).revision =
        (TurnResponse.of round.exploration turn).revision := by
    simp only [TurnResponse.of, asks.next, asks'.next, Option.bind_eq_bind, Option.bind_some,
      asks.takeWhile_questions, asks'.takeWhile_questions]
    rfl
  have rest : TurnResponse.of (round.posing other).exploration (turn.posing other) =
      { TurnResponse.of round.exploration turn with
        revision := (TurnResponse.of (round.posing other).exploration
          (turn.posing other)).revision } := rfl
  rw [rest, revision]

namespace ExploreSession

variable (session : ExploreSession)

def posing (question : Question) : ExploreSession :=
  { session with round := session.round.map fun round => round.posing question }

variable {session} {round : ExploreRound}

/-- What holds of a session whose page asks a question. -/
theorem asks_of_stage (owns : session.round = some round) {question : Question}
    (asks : session.pageStage.askedQuestion = some question) :
    session.storageError = none ∧ round.exploration.outstanding = none ∧
      round.exploration.retry = none ∧ ∃ turn, round.exploration.conversation.getLast? = some turn ∧
        turn.update.conclusion = none ∧ turn.update.next = some question := by
  unfold pageStage at asks
  split at asks
  · cases asks
  · rename_i none_
    rw [owns] at none_
    cases none_
  · rename_i stored held
    obtain rfl := Option.some.inj (owns.symm.trans held)
    dsimp only at asks
    split at asks
    · split_ifs at asks <;> cases asks
    · cases asks
    · rename_i idle settled
      refine ⟨stored, idle, settled, ?_⟩
      unfold latestTurn at asks
      dsimp only at asks
      split at asks
      · cases asks
      · rename_i turn last
        split at asks
        · cases asks
        · rename_i going next
          cases asks
          exact ⟨turn, last, going, next⟩
        · cases asks

/-- The stage of a round that asks a question. -/
theorem pageStage_asking (owns : session.round = some round) (stored : session.storageError = none)
    (idle : round.exploration.outstanding = none) (settled : round.exploration.retry = none)
    {turn : ConversationTurn} (last : round.exploration.conversation.getLast? = some turn)
    (going : turn.update.conclusion = none) {question : Question}
    (asks : turn.update.next = some question) :
    session.pageStage = .question round.exploration.questions.length question
      (session.citations.of session.cite question round.exploration.comparison)
      (.requested turn.update)
      { TurnResponse.of round.exploration turn with
        path := session.paths.lookup turn.update.request
        marksProblem := (marksFollowed round turn).bind (·.problem) }
      round.exploration.cancelledSinceLastTurn := by
  simp only [pageStage, owns, stored, idle, settled, latestTurn, last, going, asks]

/-- The stage of the same round with other alternatives. -/
theorem pageStage_posing (owns : session.round = some round) {question : Question}
    (asks : session.pageStage.askedQuestion = some question) {earlier : List ConversationTurn}
    {turn : ConversationTurn} (last : round.exploration.Asks earlier turn question)
    (alternatives : List Alternative) :
    ∃ number citations marks response cancelled,
      session.pageStage = .question number question citations marks response cancelled ∧
      (session.posing (question.offering alternatives)).pageStage =
        .question number (question.offering alternatives) citations marks response cancelled := by
  obtain ⟨stored, idle, settled, turn', held, going, next⟩ := asks_of_stage owns asks
  rw [last.conversation, List.getLast?_concat] at held
  cases held
  have same : (question.offering alternatives).id = question.id ∧
      (question.offering alternatives).version = question.version := ⟨rfl, rfl⟩
  have last' : (round.posing (question.offering alternatives)).exploration.Asks earlier _ _ :=
    last.posing same
  have ends (round : ExploreRound) (turn : ConversationTurn) (question : Question)
      (last : round.exploration.Asks earlier turn question) :
      round.exploration.conversation.getLast? = some turn := by
    rw [last.conversation, List.getLast?_concat]
  refine ⟨_, _, _, _, _, pageStage_asking owns stored idle settled (ends _ _ _ last) going next, ?_⟩
  have owns' : (session.posing (question.offering alternatives)).round =
      some (round.posing (question.offering alternatives)) := by rw [posing, owns]; rfl
  rw [pageStage_asking owns' stored idle settled (ends _ _ _ last') going last'.next]
  have response := response_posing last same
  have count : (round.posing (question.offering alternatives)).exploration.questions.length =
      round.exploration.questions.length := by
    rw [last'.questions, last.questions, List.length_append, List.length_append]
    rfl
  rw [response, count]
  rfl

theorem published_posing (owns : session.round = some round) {earlier : List ConversationTurn}
    {turn : ConversationTurn} {question other : Question}
    (asks : round.exploration.Asks earlier turn question)
    (same : other.id = question.id ∧ other.version = question.version)
    (going : turn.update.conclusion = none) :
    ∃ published decisions, session.published = some published ∧
      published.id = round.exploration.instanceId ∧
      (session.posing other).published =
        some { published with overview := { published.overview with decisions := decisions } } := by
  have owns' : (session.posing other).round = some (round.posing other) := by rw [posing, owns]; rfl
  obtain ⟨decisions, overview⟩ := asks.overview_posing same going
    ((session.pending.filter fun pending => pending.1 = round.exploration.instanceId).map Prod.snd)
  have cancellable : (session.posing other).cancellable = session.cancellable := by
    simp only [ExploreSession.cancellable, owns, owns']
    rfl
  refine ⟨_, decisions, congrArg (Option.map _) owns, rfl, (congrArg (Option.map _) owns').trans ?_⟩
  have instanceId : (round.posing other).exploration.instanceId = round.exploration.instanceId := rfl
  have pending : (session.posing other).pending = session.pending := rfl
  simp only [Option.map_some, cancellable, instanceId, pending]
  rw [overview, asks.design_posing same]
  rfl

theorem markTally_posing (owns : session.round = some round) {earlier : List ConversationTurn}
    {turn : ConversationTurn} {question other : Question}
    (asks : round.exploration.Asks earlier turn question)
    (same : other.id = question.id ∧ other.version = question.version)
    (cited : other.evidence = question.evidence) (idle : round.exploration.outstanding = none)
    (settled : round.exploration.retry = none) :
    (session.posing other).markTally = session.markTally := by
  have asks' : (round.posing other).exploration.Asks earlier _ other := asks.posing same
  have owns' : (session.posing other).round = some (round.posing other) := by rw [posing, owns]; rfl
  have waits : round.exploration.waitingTurn = some turn.update := by
    simp [Exploration.waitingTurn, idle, settled, asks.conversation, asks.next]
  have waits' : (round.posing other).exploration.waitingTurn =
      some { turn.update with next := some other } := by
    have idle' : (round.posing other).exploration.outstanding = none := idle
    have settled' : (round.posing other).exploration.retry = none := settled
    simp [Exploration.waitingTurn, idle', settled', asks'.conversation, ConversationTurn.posing]
  unfold markTally
  rw [owns, owns']
  cases early : session.historical with
  | true =>
    have early' : (session.posing other).historical = true := early
    simp only [early', Bool.not_true, Option.filter_some, if_false, Bool.false_eq_true,
      Option.bind_none]
    rfl
  | false =>
    have early' : (session.posing other).historical = false := early
    have snapshot : (session.posing other).marksSnapshot = session.marksSnapshot := rfl
    simp only [early', Bool.not_false, Option.filter_some, if_true, Option.bind_some, waits, waits',
      snapshot]
    cases session.marksSnapshot <;> exact tally_posing session.marks round asks.next cited _

end ExploreSession

/-- A snapshot that shows a stage of a published round. -/
structure Showing (snapshot : RoundSnapshot) (published : PublishedRound) (stage : RoundStage)
    (tally : MarkTally) (review : Option ReviewName) : Prop where
  round : snapshot.round = some published.id
  reviewUnit : snapshot.reviewUnit = some published.reviewUnit
  design : snapshot.design = published.design
  changedFiles : snapshot.changedFiles = published.changedFiles
  cancellable : snapshot.cancellable = published.cancellable
  earlier : snapshot.earlier = published.earlier
  past : snapshot.past = false
  overview : snapshot.overview = some published.overview
  earlierCitations : snapshot.earlierCitations = published.earlierCitations
  stage : snapshot.stage = stage
  review : snapshot.review = review
  tally : snapshot.tally = some tally

theorem showing_publishCounted (page : RoundPublisher) (published : PublishedRound)
    (stage : RoundStage) (tally : MarkTally) :
    Showing (page.publishCounted (some published) stage tally).snapshot published stage tally
      page.snapshot.review := by
  have followed := page.followed
  unfold RoundPublisher.publishCounted RoundSnapshot.publishWith
  by_cases shown : page.snapshot.shows (some published) stage = true
  · have held := shown
    simp only [RoundSnapshot.shows, Bool.and_eq_true, decide_eq_true_eq, Option.map_some,
      Option.bind_some, Option.getD_some, Option.any_some] at held
    obtain ⟨⟨⟨⟨⟨⟨⟨⟨drawn, round⟩, unit⟩, design⟩, files⟩, cancellable⟩, earlier⟩, overview⟩, cites⟩ :=
      held
    by_cases known : page.snapshot.tally = some tally
    · simp only [shown, known, Option.filter_some, ne_eq, not_true_eq_false, decide_false, if_true,
        if_false, Bool.false_eq_true, Option.isNone_none, Option.isSome_none]
      exact ⟨round, unit, design, files, cancellable, earlier, followed, overview, cites, drawn, rfl,
        known⟩
    · simp only [shown, known, Option.filter_some, ne_eq, not_false_eq_true, decide_true, if_true,
        if_false, Bool.false_eq_true, Option.isNone_some, Option.isSome_some]
      exact ⟨round, unit, design, files, cancellable, earlier, followed, overview, cites, drawn, rfl,
        rfl⟩
  · by_cases known : page.snapshot.tally = some tally
    · simp only [shown, known, Option.filter_some, ne_eq, not_true_eq_false, decide_false,
        if_false, Bool.false_eq_true, Option.isSome_none]
      exact ⟨rfl, rfl, rfl, rfl, rfl, rfl, rfl, rfl, rfl, rfl, rfl, rfl⟩
    · simp only [shown, known, Option.filter_some, ne_eq, not_false_eq_true, decide_true, if_true,
        if_false, Bool.false_eq_true, Option.isSome_some]
      exact ⟨rfl, rfl, rfl, rfl, rfl, rfl, rfl, rfl, rfl, rfl, rfl, rfl⟩

theorem view_of_showing (draw : Drawing) {snapshot snapshot' : RoundSnapshot}
    {published : PublishedRound} {decisions : List Decision} {question : Question}
    {alternatives : List Alternative} {number : Nat} {citations : List Citation}
    {marks : QuestionMarks} {response : TurnResponse} {cancelled : Bool} {tally : MarkTally}
    {review : Option ReviewName}
    (shows : Showing snapshot published (.question number question citations marks response cancelled)
      tally review)
    (shows' : Showing snapshot'
      { published with overview := { published.overview with decisions := decisions } }
      (.question number (question.offering alternatives) citations marks response cancelled) tally review)
    (picks : FirstPicks) (threads : Option ThreadsSnapshot)
    (asked : QuestionView.of draw snapshot' picks = QuestionView.of draw snapshot picks) :
    PageView.new draw snapshot' picks threads = PageView.new draw snapshot picks threads := by
  obtain ⟨revision, round, unit, design, files, author, cancellable, earlier, past, overview, cites,
    stage, name, block, counts⟩ := snapshot
  obtain ⟨revision', round', unit', design', files', author', cancellable', earlier', past',
    overview', cites', stage', name', block', counts'⟩ := snapshot'
  obtain ⟨rfl, rfl, rfl, rfl, rfl, rfl, rfl, rfl, rfl, rfl, rfl, rfl⟩ := shows
  obtain ⟨rfl, rfl, rfl, rfl, rfl, rfl, rfl, rfl, rfl, rfl, rfl, rfl⟩ := shows'
  unfold PageView.new
  dsimp only
  rw [asked]
  rfl

theorem BlindQuestion.question_of {question : Question} {blind : BlindQuestion}
    (hides : of question = some blind) : blind.question = question := by
  obtain ⟨_, held⟩ := Option.dite_none_right_eq_some.mp hides
  exact congrArg BlindQuestion.question (Option.some.inj held).symm

/-- A choice drawn before the first pick tells nothing of its recommendation. -/
theorem choiceView_silent (alternative : Alternative) :
    ChoiceView.new alternative.silent .hiddenUntilPick none =
      ChoiceView.new alternative .hiddenUntilPick none := by
  simp only [ChoiceView.new, Alternative.silent]
  cases alternative.recommendation <;> rfl

/-- The order of the choices tells nothing of the order the agent gave them. -/
theorem choices_offering {blind blind' : BlindQuestion} {alternatives : List Alternative}
    (offered : blind'.question = blind.question.offering alternatives)
    (same : (alternatives.map Alternative.silent).Perm
      (blind.question.alternatives.map Alternative.silent))
    (apart : (blind.question.alternatives.map fun alternative =>
      rank blind.question.id alternative.id).Nodup) :
    blind'.choices.map Alternative.silent = blind.choices.map Alternative.silent := by
  let key (alternative : Alternative) : UInt64 := rank blind.question.id alternative.id
  have kept (alternatives : List Alternative) :
      (alternatives.mergeSort fun a b => key a ≤ key b).map Alternative.silent =
        (alternatives.map Alternative.silent).mergeSort fun a b => key a ≤ key b :=
    List.map_mergeSort fun _ _ _ _ => rfl
  have sorted : (alternatives.map Alternative.silent).mergeSort (fun a b => key a ≤ key b) =
      (blind.question.alternatives.map Alternative.silent).mergeSort fun a b => key a ≤ key b := by
    refine mergeSort_eq_of_perm key same ((same.map key).nodup_iff.mpr ?_)
    rw [List.map_map]
    exact apart
  have choices (blind : BlindQuestion) (alternatives : List Alternative)
      (offers : blind.question.alternatives = alternatives) : blind.choices =
        alternatives.mergeSort (fun a b => rank blind.question.id a.id ≤ rank blind.question.id b.id) ++
          [noneOfTheAbove] := by
    simp only [BlindQuestion.choices, Question.choices, offers, List.dropLast_concat,
      List.getLast?_concat, Option.toList_some]
  have id : blind'.question.id = blind.question.id := by rw [offered]; rfl
  rw [choices blind' alternatives (by rw [offered]; rfl), choices blind _ rfl, id, List.map_append,
    List.map_append, kept, kept, sorted]

/-- The view of a blind question without a first pick reads its choices in silence. -/
theorem questionView_of_showing (draw : Drawing) {snapshot : RoundSnapshot}
    {published : PublishedRound} {question : Question} {number : Nat} {citations : List Citation}
    {marks : QuestionMarks} {response : TurnResponse} {tally : MarkTally} {review : Option ReviewName}
    (shows : Showing snapshot published (.question number question citations marks response false)
      tally review)
    {blind : BlindQuestion} (hides : BlindQuestion.of question = some blind) {picks : FirstPicks}
    (unpicked : picks.of published.id question.id question.version = none) :
    QuestionView.of draw snapshot picks =
      some ((({ QuestionView.new draw (some published.id) (snapshot.questionNumber.getD 0) question
          (some blind) citations marks none with
        choices := (blind.choices.map Alternative.silent).map fun choice =>
          .new choice .hiddenUntilPick none }.withAnswerable !published.earlier).counted
            (some tally)).revised draw response.revision) := by
  have choices : (blind.choices.map Alternative.silent).map (fun choice =>
      ChoiceView.new choice .hiddenUntilPick none) =
        blind.choices.map fun choice => .new choice .hiddenUntilPick none := by
    rw [List.map_map]
    exact List.map_congr_left fun choice _ => choiceView_silent choice
  rw [choices]
  unfold QuestionView.of
  rw [shows.stage]
  simp only [RoundStage.blind, hides, shows.past, shows.round, shows.earlier, shows.tally,
    Bool.not_false, Option.filter_some, if_true, Option.bind_eq_bind, Option.bind_some, unpicked,
    Option.filter_none]
  rfl

/-- Of a blind question the page keeps from the reviewer which choices the agent recommends, and
why, and the order the agent gave them, until the first pick. -/
theorem blind_question_hides {start round : ExploreRound} (fresh : start.IsNew)
    (run : Reaches ExploreRound.step ExploreRound.Fresh start round) {session : ExploreSession}
    (owns : session.round = some round) {question : Question}
    (asks : session.pageStage.askedQuestion = some question) {alternatives : List Alternative}
    (same : (alternatives.map Alternative.silent).Perm (question.alternatives.map Alternative.silent))
    (blind : session.pageStage.blind.isSome)
    (blind' : (session.posing (question.offering alternatives)).pageStage.blind.isSome)
    (apart : (question.alternatives.map fun alternative => rank question.id alternative.id).Nodup)
    (page other : RoundPublisher) (named : other.snapshot.review = page.snapshot.review)
    {picks : FirstPicks}
    (unpicked : picks.of round.exploration.instanceId question.id question.version = none)
    (draw : Drawing) (threads : Option ThreadsSnapshot) :
    PageView.new draw
        ((session.posing (question.offering alternatives)).publishPage other).snapshot picks threads =
      PageView.new draw (session.publishPage page).snapshot picks threads := by
  obtain ⟨_, idle, settled, turn, last, going, next⟩ := ExploreSession.asks_of_stage owns asks
  have posed := ExploreRound.asks_of_reaches fresh run last next
  have alike : (question.offering alternatives).id = question.id ∧
      (question.offering alternatives).version = question.version := ⟨rfl, rfl⟩
  obtain ⟨number, citations, marks, response, cancelled, stage, stage'⟩ :=
    ExploreSession.pageStage_posing owns asks posed alternatives
  obtain ⟨published, decisions, shown, round_, shown'⟩ :=
    ExploreSession.published_posing owns posed alike going
  have tally : (session.posing (question.offering alternatives)).markTally = session.markTally :=
    ExploreSession.markTally_posing owns posed alike rfl idle settled
  have shows : Showing (session.publishPage page).snapshot published
      (.question number question citations marks response cancelled) session.markTally
      page.snapshot.review := by
    rw [ExploreSession.publishPage, shown, stage]
    exact showing_publishCounted ..
  have shows' : Showing ((session.posing (question.offering alternatives)).publishPage other).snapshot
      { published with overview := { published.overview with decisions := decisions } }
      (.question number (question.offering alternatives) citations marks response cancelled)
      session.markTally page.snapshot.review := by
    rw [ExploreSession.publishPage, shown', stage', tally, ← named]
    exact showing_publishCounted ..
  rw [stage] at blind
  rw [stage'] at blind'
  cases cancelled with
  | true => cases blind
  | false =>
    obtain ⟨hidden, hides⟩ := Option.isSome_iff_exists.mp blind
    obtain ⟨hidden', hides'⟩ := Option.isSome_iff_exists.mp blind'
    refine view_of_showing draw shows shows' picks threads ?_
    have choices : hidden'.choices.map Alternative.silent = hidden.choices.map Alternative.silent := by
      obtain rfl := BlindQuestion.question_of hides
      exact choices_offering (BlindQuestion.question_of hides') same apart
    have step : RoundSnapshot.questionNumber
        ((session.posing (question.offering alternatives)).publishPage other).snapshot =
          (session.publishPage page).snapshot.questionNumber := by
      simp only [RoundSnapshot.questionNumber, shows.stage, shows'.stage, shows.overview,
        shows'.overview, Option.bind_some]
    rw [← round_] at unpicked
    refine (questionView_of_showing draw shows' hides' unpicked).trans
      (.trans ?_ (questionView_of_showing draw shows hides unpicked).symm)
    rw [choices, step]
    rfl

namespace Sample

open Explore.Sample

/-- A question that is hard to reverse, whose first choice the agent recommends. -/
def hard : Question :=
  let lens : Consequence := ⟨"Hard to undo", "", [], ["Cost"]⟩
  { question "why" with
    alternatives := [⟨"yes", "Yes", .accepted, some "Safer"⟩, ⟨"no", "No", .«open», none⟩]
    assessments := some ⟨.mixed, lens, lens⟩ }

/-- The same choices the other way round, with the other one recommended. -/
def swapped : List Alternative :=
  [⟨"no", "No", .«open», some "Cheaper"⟩, ⟨"yes", "Yes", .accepted, none⟩]

def asking : ExploreRound :=
  [post (request "kickoff" none []),
    submit { first "why" [topic] with next := some hard }].foldl ExploreRound.step opened

def session : ExploreSession where
  round := some asking
  storageError := none
  start := .idle "start"
  pending := none
  historical := false
  implementation := false
  paths := .empty
  finishingSince := fun _ => none
  citations := ⟨none⟩
  earlierCitations := ⟨none⟩
  cite := fun _ evidence => ⟨evidence, .ok []⟩
  marks := []
  marksSnapshot := none
  unchangedAt := fun _ _ => .all

/-- Markdown drawn as it is written. -/
def plain : Drawing := ⟨fun _ => id, fun _ => id, fun _ => "", fun _ => [], fun _ => 0, "script"⟩

theorem reaches_asking : Reaches ExploreRound.step ExploreRound.Fresh opened asking :=
  Reaches.start.foldl (by decide)

/-- The page does not tell which of the two choices the agent recommends. -/
theorem recommendation_hidden :
    let page := RoundPublisher.new none (.noRound "start")
    PageView.new plain ((session.posing (hard.offering swapped)).publishPage page).snapshot .none none =
      PageView.new plain (session.publishPage page).snapshot .none none :=
  blind_question_hides isNew_opened reaches_asking rfl (by decide) (by decide) (by decide) (by decide)
    (by decide +kernel) _ _ rfl rfl plain none

end Sample

end ProgressiveReviewer.Page
