import ProgressiveReviewer.Explore.Steps
import ProgressiveReviewer.Library.Keyed

/-! What every dialogue keeps: identities, the records of its turns, and that what it
decided is the replay of its conversation. -/

namespace ProgressiveReviewer.Explore

open Library

theorem TurnRequest.carries_iff {request : TurnRequest} {id : String} :
    request.carries id = true ↔ request.answer.map (·.id) = some id := by
  cases given : request.answer <;> simp [carries, given]

theorem update_eq_some {β : Type} {records : String → Option β} {id key : String} {record new : β}
    (found : Function.update records key (some new) id = some record) :
    (id = key ∧ record = new) ∨ records id = some record := by
  by_cases same : id = key
  · subst same
    rw [Function.update_self] at found
    exact .inl ⟨rfl, (Option.some.inj found).symm⟩
  · rw [Function.update_of_ne same] at found
    exact .inr found

namespace Dialogue

/-- The answer a turn followed. -/
def answerOf (answers : List ReviewerAnswer) (turn : ConversationTurn) : Option ReviewerAnswer :=
  turn.answer.bind fun id => Keyed.find (·.id) id answers

theorem replayed_concat {answers : List ReviewerAnswer} {conversation : List ConversationTurn}
    {turn : ConversationTurn} : replayed answers (conversation ++ [turn]) =
      (replayed answers conversation).absorb turn.update (answerOf answers turn) := by
  rw [replayed, List.foldl_concat]
  rfl

theorem replayed_congr {answers more : List ReviewerAnswer} {conversation : List ConversationTurn}
    (same : ∀ turn ∈ conversation, answerOf answers turn = answerOf more turn) :
    replayed answers conversation = replayed more conversation :=
  List.foldl_ext _ _ _ fun decided turn mem => congrArg (decided.absorb turn.update) (same turn mem)

/-- A turn that interprets nothing decides the same after any answer. -/
theorem absorb_uninterpreted {decided : Decided} {update : InterviewUpdate}
    {answer : Option ReviewerAnswer} (uninterpreted : update.interpretation = none) :
    decided.absorb update answer = decided.absorb update none := by
  simp only [Decided.absorb, Decided.interpret, uninterpreted]

structure Coherent (d : Dialogue) : Prop where
  answers : (d.answers.map (·.id)).Nodup
  requests : (d.conversation.map (·.update.request)).Nodup
  homes : ∀ turn ∈ d.conversation, turn.update.instanceId = d.instanceId
  pending : d.outstanding = none ∨ d.outstanding = d.retry
  retried : ∀ request, d.retry = some request →
    ∃ entry, d.sent request.request = some entry ∧ entry.2.answer = request.answer
  carried : ∀ id entry answer, d.sent id = some entry → entry.2.answer = some answer →
    answer ∈ d.answers
  followed : ∀ turn ∈ d.conversation, ∀ id, turn.answer = some id → d.Answered id
  recorded : ∀ turn ∈ d.conversation, turn.revision = none →
    ∃ entry, d.sent turn.update.request = some entry ∧ entry.2.answer.map (·.id) = turn.answer
  /-- The first turn after an answer is no revision. -/
  first : ∀ id turn, d.conversation.find? (fun turn => turn.answer = some id) = some turn →
    turn.revision = none
  decided : d.decided = replayed d.answers d.conversation
  completed : ∀ completion, d.completion = some completion →
    completion.baseline = d.comparison.checkpoint.checkpoint ∧ ∃ turn ∈ d.conversation,
      turn.revision = none ∧ turn.update.request = completion.request ∧
        turn.update.conclusion.isSome = true

namespace Coherent

variable {d : Dialogue}

theorem answerOf_append (coherent : d.Coherent) {more : List ReviewerAnswer}
    {turn : ConversationTurn} (mem : turn ∈ d.conversation) :
    answerOf (d.answers ++ more) turn = answerOf d.answers turn := by
  unfold answerOf
  cases followed : turn.answer with
  | none => rfl
  | some id =>
    obtain ⟨answer, held, rfl⟩ := coherent.followed turn mem id followed
    simp only [Option.bind_some, Keyed.find_append, Keyed.find_self coherent.answers held,
      Option.some_or]

/-- The request on its way also waits for a retry. -/
theorem retry_of_outstanding (coherent : d.Coherent) {request : TurnRequest}
    (outstanding : d.outstanding = some request) : d.retry = some request := by
  rcases coherent.pending with idle | same
  · rw [idle] at outstanding; cases outstanding
  · exact same ▸ outstanding

/-- The answer a pending request carries. -/
theorem pending_answer (coherent : d.Coherent) {request : TurnRequest}
    (pending : d.retry = some request) :
    (request.answer.map (·.id)).bind (fun id => Keyed.find (·.id) id d.answers) = request.answer := by
  obtain ⟨entry, sent, same⟩ := coherent.retried request pending
  cases given : request.answer with
  | none => rfl
  | some answer =>
    exact Keyed.find_self coherent.answers (coherent.carried _ _ _ sent (same.trans given))

theorem ask (coherent : d.Coherent) {attempt : String} {request : TurnRequest}
    (unsent : d.sent request.request = none)
    (admits : ∀ answer, request.answer = some answer → d.Admits answer) :
    (d.ask attempt request).Coherent where
  answers := by
    cases given : request.answer with
    | none => simpa [Dialogue.ask, given] using coherent.answers
    | some answer =>
      have apart : ∀ old ∈ d.answers, old.id ≠ answer.id := (admits answer given).fresh
      simpa [Dialogue.ask, given, List.nodup_append, coherent.answers] using apart
  requests := coherent.requests
  homes := coherent.homes
  pending := .inr rfl
  retried := by
    rintro _ ⟨⟩
    exact ⟨_, Function.update_self .., rfl⟩
  carried := fun id entry answer sent given => by
    rcases update_eq_some sent with ⟨_, rfl⟩ | sent
    · exact List.mem_append_right _ (Option.mem_toList.mpr given)
    · exact List.mem_append_left _ (coherent.carried _ _ _ sent given)
  followed := fun turn mem id given =>
    have ⟨answer, held, same⟩ := coherent.followed turn mem id given
    ⟨answer, List.mem_append_left _ held, same⟩
  recorded := fun turn mem new => by
    obtain ⟨entry, sent, same⟩ := coherent.recorded turn mem new
    have other : turn.update.request ≠ request.request := fun equal => by
      rw [equal, unsent] at sent; cases sent
    exact ⟨entry, (Function.update_of_ne other ..).trans sent, same⟩
  first := coherent.first
  decided := coherent.decided.trans
    (replayed_congr fun _ mem => (coherent.answerOf_append mem).symm)
  completed := coherent.completed

theorem resend (coherent : d.Coherent) {attempt : String} {request : TurnRequest}
    {previous : String × TurnRequest} (sent : d.sent request.request = some previous)
    (same : previous.2.answer = request.answer)
    (unsaved : ∀ turn ∈ d.conversation, turn.update.request ≠ request.request) :
    (d.resend attempt request).Coherent where
  answers := coherent.answers
  requests := coherent.requests
  homes := coherent.homes
  pending := .inr rfl
  retried := by
    rintro _ ⟨⟩
    exact ⟨_, Function.update_self .., rfl⟩
  carried := fun id entry answer found given => by
    rcases update_eq_some found with ⟨_, rfl⟩ | found
    · exact coherent.carried _ _ _ sent (same.trans given)
    · exact coherent.carried _ _ _ found given
  followed := coherent.followed
  recorded := fun turn mem new => by
    obtain ⟨entry, found, same⟩ := coherent.recorded turn mem new
    exact ⟨entry, (Function.update_of_ne (unsaved turn mem) ..).trans found, same⟩
  first := coherent.first
  decided := coherent.decided
  completed := coherent.completed

theorem nodup_concat (coherent : d.Coherent) {turn : ConversationTurn}
    (new : ∀ earlier ∈ d.conversation, earlier.update.request ≠ turn.update.request) :
    ((d.conversation ++ [turn]).map (·.update.request)).Nodup := by
  simpa [List.nodup_append, coherent.requests] using new

theorem accept (coherent : d.Coherent) {request : TurnRequest} {update : InterviewUpdate}
    (outstanding : d.outstanding = some request) (same : update.request = request.request)
    (home : update.instanceId = d.instanceId)
    (unsaved : ∀ turn ∈ d.conversation, turn.update.request ≠ update.request) :
    (d.accept request update).Coherent := by
  have retry := coherent.retry_of_outstanding outstanding
  obtain ⟨entry, sent, carries⟩ := coherent.retried request retry
  exact {
    answers := coherent.answers
    requests := coherent.nodup_concat unsaved
    homes := List.forall_mem_append.mpr ⟨coherent.homes, fun _ mem => List.mem_singleton.mp mem ▸ home⟩
    pending := .inl rfl
    retried := fun _ absent => nomatch absent
    carried := coherent.carried
    followed := List.forall_mem_append.mpr ⟨coherent.followed, by
      rintro _ (_ | ⟨_, ⟨⟩⟩) id followed
      obtain ⟨answer, given, rfl⟩ := Option.map_eq_some_iff.mp followed
      exact ⟨answer, coherent.carried _ _ _ sent (carries.trans given), rfl⟩⟩
    recorded := List.forall_mem_append.mpr ⟨coherent.recorded, by
      rintro _ (_ | ⟨_, ⟨⟩⟩) _
      exact ⟨entry, same ▸ sent, congrArg (·.map (·.id)) carries⟩⟩
    first := fun id turn found => by
      rcases Option.or_eq_some_iff.mp (List.find?_append.symm.trans found) with found | ⟨_, found⟩
      · exact coherent.first id turn found
      · obtain rfl := List.mem_singleton.mp (List.mem_of_find?_eq_some found)
        rfl
    decided := by
      rw [Dialogue.accept, replayed_concat, answerOf, coherent.pending_answer retry, coherent.decided]
    completed := fun completion completed => by
      rw [Dialogue.accept, Dialogue.completed] at completed
      split_ifs at completed with ends
      · obtain rfl := Option.some.inj completed
        exact ⟨rfl, _, List.mem_append_right _ (List.mem_singleton.mpr rfl), rfl, rfl, ends.1⟩
      · obtain ⟨baseline, turn, mem, concluded⟩ := coherent.completed completion completed
        exact ⟨baseline, turn, List.mem_append_left _ mem, concluded⟩ }

theorem revise (coherent : d.Coherent) {turn previous : ConversationTurn}
    (last : d.conversation.getLast? = some previous) (follows : turn.answer = previous.answer)
    (revised : turn.revision.isSome = true)
    (home : turn.update.instanceId = previous.update.instanceId)
    (uninterpreted : turn.update.interpretation = none)
    (unsaved : ∀ earlier ∈ d.conversation, earlier.update.request ≠ turn.update.request) :
    (d.revise turn).Coherent := by
  have held := List.mem_of_getLast? last
  exact {
    answers := coherent.answers
    requests := coherent.nodup_concat unsaved
    homes := List.forall_mem_append.mpr ⟨coherent.homes, fun _ mem =>
      List.mem_singleton.mp mem ▸ home.trans (coherent.homes previous held)⟩
    pending := coherent.pending
    retried := coherent.retried
    carried := coherent.carried
    followed := List.forall_mem_append.mpr ⟨coherent.followed, by
      rintro _ (_ | ⟨_, ⟨⟩⟩) id followed
      exact coherent.followed previous held id (follows ▸ followed)⟩
    recorded := List.forall_mem_append.mpr ⟨coherent.recorded, by
      rintro _ (_ | ⟨_, ⟨⟩⟩) none
      rw [none] at revised; cases revised⟩
    first := fun id other found => by
      rcases Option.or_eq_some_iff.mp (List.find?_append.symm.trans found) with found | ⟨no, found⟩
      · exact coherent.first id other found
      · obtain rfl := List.mem_singleton.mp (List.mem_of_find?_eq_some found)
        have answered : other.answer = some id := by simpa using List.find?_some found
        exact absurd (follows ▸ answered) (by simpa using List.find?_eq_none.mp no previous held)
    decided := by
      have decided := congrArg (·.absorb turn.update none) coherent.decided
      exact decided.trans ((absorb_uninterpreted uninterpreted).symm.trans replayed_concat.symm)
    completed := fun completion completed =>
      have ⟨baseline, turn, mem, concluded⟩ := coherent.completed completion completed
      ⟨baseline, turn, List.mem_append_left _ mem, concluded⟩ }

theorem retry_of_pendingWith (coherent : d.Coherent) {id : String} {request : TurnRequest}
    (pending : d.pendingWith id = some request) :
    d.retry = some request ∧ request.carries id = true := by
  have kept : ∀ {held : Option TurnRequest}, held.filter (·.carries id) = some request →
      held = some request ∧ request.carries id = true := fun found =>
    Option.filter_eq_some_iff.mp found
  rcases Option.or_eq_some_iff.mp pending with found | ⟨_, found⟩
  · obtain ⟨outstanding, carries⟩ := kept found
    exact ⟨coherent.retry_of_outstanding outstanding, carries⟩
  · exact kept found

/-- Whatever goes with an answer carried it. -/
theorem carries_of_forgets (coherent : d.Coherent) {id request : String}
    {entry : String × TurnRequest} (forgets : d.forgets id request = true)
    (sent : d.sent request = some entry) : entry.2.carries id = true := by
  rcases (Bool.or_eq_true _ _).mp forgets with carried | named
  · simpa [sent] using carried
  rw [TurnRequest.carries_iff]
  rcases Option.or_eq_some_iff.mp (beq_iff_eq.mp named) with took | ⟨_, pending⟩
  · obtain ⟨turn, found, rfl⟩ := Option.map_eq_some_iff.mp took
    obtain ⟨record, held, same⟩ := coherent.recorded turn (List.mem_of_find?_eq_some found)
      (coherent.first id turn found)
    obtain rfl := Option.some.inj (sent.symm.trans held)
    exact same.trans (by simpa using List.find?_some found)
  · obtain ⟨waiting, found, rfl⟩ := Option.map_eq_some_iff.mp pending
    obtain ⟨retry, carries⟩ := coherent.retry_of_pendingWith found
    obtain ⟨record, held, same⟩ := coherent.retried waiting retry
    obtain rfl := Option.some.inj (sent.symm.trans held)
    exact same ▸ TurnRequest.carries_iff.mp carries

/-- The request of a turn goes exactly with the answer that the turn followed. -/
theorem forgets_iff (coherent : d.Coherent) {id : String} {turn : ConversationTurn}
    (mem : turn ∈ d.conversation) (new : turn.revision = none) :
    d.forgets id turn.update.request = true ↔ turn.answer = some id := by
  obtain ⟨entry, sent, same⟩ := coherent.recorded turn mem new
  rw [← same, ← TurnRequest.carries_iff]
  refine ⟨fun forgets => coherent.carries_of_forgets forgets sent, fun carries => ?_⟩
  exact (Bool.or_eq_true _ _).mpr (.inl (by simpa [sent] using carries))

theorem sent_of_withdraw {id request : String} {entry : String × TurnRequest}
    (sent : (d.withdraw id).sent request = some entry) :
    d.sent request = some entry ∧ d.forgets id request = false := by
  dsimp only [Dialogue.withdraw] at sent
  split_ifs at sent with forgets
  exact ⟨sent, Bool.not_eq_true _ ▸ forgets⟩

theorem mem_dropLast {answers : List ReviewerAnswer} {answer other : ReviewerAnswer}
    (last : answers.getLast? = some answer) (mem : other ∈ answers) (differs : other.id ≠ answer.id) :
    other ∈ answers.dropLast := by
  rw [← List.dropLast_append_getLast? answer last] at mem
  rcases List.mem_append.mp mem with mem | mem
  · exact mem
  · exact absurd (congrArg (·.id) (List.mem_singleton.mp mem)) differs

theorem withdraw (coherent : d.Coherent) {answer : ReviewerAnswer}
    (last : d.answers.getLast? = some answer) : (d.withdraw answer.id).Coherent where
  answers := coherent.answers.sublist ((List.dropLast_sublist _).map _)
  requests := coherent.requests.sublist (List.filter_sublist.map _)
  homes := fun turn mem => coherent.homes turn (List.mem_filter.mp mem).1
  pending := by
    dsimp only [Dialogue.withdraw]
    split_ifs
    · exact .inl rfl
    · exact coherent.pending
  retried := fun request retry => by
    dsimp only [Dialogue.withdraw] at retry ⊢
    split_ifs at retry with pending
    obtain ⟨entry, sent, same⟩ := coherent.retried request retry
    have kept : ¬d.forgets answer.id request.request = true := fun forgets => by
      have carries := coherent.carries_of_forgets forgets sent
      rw [TurnRequest.carries_iff, same, ← TurnRequest.carries_iff] at carries
      exact pending (by simp [pendingWith, retry, carries])
    exact ⟨entry, (if_neg kept).trans sent, same⟩
  carried := fun id entry other sent given => by
    obtain ⟨sent, kept⟩ := sent_of_withdraw sent
    have carried : entry.2.carries answer.id = false := by
      have none := (Bool.or_eq_false_iff.mp kept).1
      simpa [sent] using none
    refine mem_dropLast last (coherent.carried _ _ _ sent given) fun same => ?_
    simp [TurnRequest.carries, given, same] at carried
  followed := fun turn mem id given => by
    obtain ⟨mem, kept⟩ := List.mem_filter.mp mem
    obtain ⟨other, held, rfl⟩ := coherent.followed turn mem id given
    refine ⟨other, mem_dropLast last held fun same => ?_, rfl⟩
    rw [given, same] at kept
    simp at kept
  recorded := fun turn mem new => by
    obtain ⟨mem, kept⟩ := List.mem_filter.mp mem
    obtain ⟨entry, sent, same⟩ := coherent.recorded turn mem new
    have kept : ¬d.forgets answer.id turn.update.request = true := fun forgets =>
      of_decide_eq_true kept ((coherent.forgets_iff mem new).mp forgets)
    exact ⟨entry, (if_neg kept).trans sent, same⟩
  first := fun id turn found => by
    have found := List.find?_filter.symm.trans found
    by_cases same : id = answer.id
    · have holds := List.find?_some found
      simp [same] at holds
    · refine coherent.first id turn (.trans (congrArg (d.conversation.find? ·) ?_) found)
      funext other
      by_cases followed : other.answer = some id <;> simp [followed, same]
  decided := by
    have kept : ∀ turn ∈ d.conversation, turn.answer ≠ some answer.id →
        answerOf d.answers turn = answerOf d.answers.dropLast turn := fun turn mem differs => by
      nth_rewrite 1 [← List.dropLast_append_getLast? answer last]
      unfold answerOf
      cases given : turn.answer with
      | none => rfl
      | some id =>
        have other : answer.id ≠ id := fun same => differs (same ▸ given)
        simp [Keyed.find_append, Keyed.find_cons, other]
    by_cases took : (d.tookUp answer.id).isSome = true
    · exact if_pos took
    · have unfollowed : ∀ turn ∈ d.conversation, turn.answer ≠ some answer.id := by
        simpa [tookUp] using took
      refine (if_neg took).trans (coherent.decided.trans ?_)
      rw [Dialogue.withdraw, List.filter_eq_self.mpr (by simpa using unfollowed)]
      exact replayed_congr fun turn mem => kept turn mem (unfollowed turn mem)
  completed := fun completion completed => by
    obtain ⟨held, kept⟩ := Option.filter_eq_some_iff.mp completed
    obtain ⟨baseline, turn, mem, new, same, concluded⟩ := coherent.completed completion held
    refine ⟨baseline, turn, List.mem_filter.mpr ⟨mem, decide_eq_true fun answered => ?_⟩, new, same,
      concluded⟩
    rw [← same, (coherent.forgets_iff mem new).mpr answered] at kept
    cases kept

theorem drop (coherent : d.Coherent) : Coherent { d with outstanding := none } :=
  { coherent with pending := .inl rfl }

theorem fail (coherent : d.Coherent) {error : String} : Coherent { d with
    outstanding := none
    retry := d.retry.map fun retry => { retry with responseError := some error } } :=
  { coherent with
    pending := .inl rfl
    retried := fun request retry => by
      obtain ⟨previous, held, rfl⟩ := Option.map_eq_some_iff.mp retry
      exact coherent.retried previous held }

theorem retry (coherent : d.Coherent) : Coherent { d with outstanding := d.retry } :=
  { coherent with pending := .inr rfl }

theorem implement (coherent : d.Coherent) {attempt : String} {request : ImplementationRequest} :
    (d.implement attempt request).Coherent :=
  { coherent with }

theorem move (coherent : d.Coherent) {event : Event} {after : Dialogue} (moved : Move d event after) :
    after.Coherent := by
  cases moved with
  | ask _ unsent _ _ _ admits => exact coherent.ask unsent admits
  | resend sent _ _ _ _ same unsaved => exact coherent.resend sent same unsaved
  | accept outstanding same home unsaved _ => exact coherent.accept outstanding same home unsaved
  | revise _ _ last follows revised home _ uninterpreted _ _ unsaved _ =>
    exact coherent.revise last follows revised home uninterpreted unsaved
  | drop => exact coherent.drop
  | fail => exact coherent.fail
  | retry _ => exact coherent.retry
  | withdraw last _ => exact coherent.withdraw last
  | implement _ _ _ => exact coherent.implement

end Coherent

end Dialogue

namespace ExploreRound

/-- A round before its first request, with the reviewer's choices at its start. -/
def IsNew (round : ExploreRound) : Prop :=
  ∃ instanceId comparison challenger author reviewer writing, round =
    new ((Exploration.new instanceId comparison).choose challenger author reviewer writing)

variable {start round : ExploreRound}

theorem IsNew.coherent (fresh : start.IsNew) : start.dialogue.Coherent := by
  obtain ⟨_, _, _, _, _, _, rfl⟩ := fresh
  exact {
    answers := List.nodup_nil
    requests := List.nodup_nil
    homes := fun _ mem => absurd mem List.not_mem_nil
    pending := .inl rfl
    retried := fun _ absent => nomatch absent
    carried := fun _ _ _ absent => nomatch absent
    followed := fun _ mem => absurd mem List.not_mem_nil
    recorded := fun _ mem => absurd mem List.not_mem_nil
    first := fun _ _ absent => nomatch absent
    decided := rfl
    completed := fun _ absent => nomatch absent }

theorem step_coherent {action : Action} (coherent : round.dialogue.Coherent)
    (fresh : round.Fresh action) : (round.step action).dialogue.Coherent := by
  obtain ⟨events, _, path⟩ := step_path fresh
  exact path.invariant coherent fun _ _ _ _ before moved => before.move moved

theorem coherent_of_reaches (fresh : start.IsNew) (run : Reaches step Fresh start round) :
    round.dialogue.Coherent := by
  induction run with
  | start => exact fresh.coherent
  | step action _ may ih => exact step_coherent ih may

end ExploreRound

/-! A small round, for runs on fixed inputs. -/

namespace Sample

open ExploreRound

def world : World where
  lowercase := id
  alphanumeric := fun _ => true
  quoted := id
  diskPath := .ok
  readFile := fun _ => .ok []
  baseFile := fun _ _ => .ok []

def comparison : Comparison := ⟨⟨"unit", "checkpoint"⟩, [], [], [], none⟩

def opened : ExploreRound :=
  new ((Exploration.new "round" comparison).choose false .reviewer none .plain)

theorem isNew_opened : opened.IsNew := ⟨_, _, _, _, _, _, rfl⟩

def request (id : String) (answer : Option ReviewerAnswer) (cancelled : List String) :
    TurnRequest where
  instanceId := "round"
  request := id
  checkpoint := comparison.checkpoint
  answer := answer
  cancelled := cancelled
  responseError := none
  challenger := false
  author := .reviewer
  reviewer := none
  writing := .plain

def topic : Topic := ⟨"topic", "Topic", [], .«open», "", [], 0⟩

def question (id : String) : Question where
  id := id
  version := 1
  topic := "topic"
  text := "Why?"
  rationale := none
  visual := none
  alternatives := [⟨"yes", "Yes", .accepted, none⟩, ⟨"no", "No", .«open», none⟩]
  evidence := [⟨⟨[102], .new, none⟩, "Here"⟩]
  assessments := none

/-- A reply in free text. -/
def answer (id : String) (question : Option Question) (inReplyTo : String) : ReviewerAnswer where
  id := id
  checkpoint := comparison.checkpoint
  question := question
  inReplyTo := inReplyTo
  option := none
  text := "Text"
  author := "reviewer"
  firstPick := none
  drawingBoard := false

/-- A turn with an empty conclusion. -/
def closing (request : String) : InterviewUpdate where
  instanceId := "round"
  request := request
  checkpoint := comparison.checkpoint
  interpretation := none
  reviewed := []
  reopened := []
  notRelevant := []
  challengerProposals := []
  reply := none
  design := none
  glossary := .empty
  agenda := []
  topics := []
  next := none
  conclusion := some ⟨"Done", "", "", [], some "Nothing to ask"⟩
  limitations := []
  findings := []

/-- A turn that asks a question. -/
def asking (request question : String) (topics : List Topic) : InterviewUpdate :=
  { closing request with
    reply := some ⟨"Reply", []⟩
    topics := topics
    next := some (Sample.question question)
    conclusion := none }

def design : Design :=
  let part : DesignPart := ⟨some "Thesis", "Body"⟩
  ⟨some "Thesis", part, part, part, part⟩

/-- The first turn, with the design that comes before the first question. -/
def first (question : String) (topics : List Topic) : InterviewUpdate :=
  { asking "kickoff" question topics with design := some design }

def post (request : TurnRequest) : Action := .post request ⟨"request", "answer"⟩ "attempt"

def submit (update : InterviewUpdate) : Action := .submit world 0 [] update

/-- The round waits for an answer to its first question. -/
def waiting : ExploreRound :=
  [post (request "kickoff" none []), submit (first "why" [topic])].foldl step opened

/-- The answer to that question. -/
def reply : Action :=
  post (request "reply" (some (answer "first" (some (question "why")) "kickoff")) [])

end Sample

end ProgressiveReviewer.Explore
