import ProgressiveReviewer.Hooks.Listener

/-! What the expectations of a reviewer hear is what happened to the prompts of their agents,
along every run of the hooks. -/

namespace ProgressiveReviewer.Hooks

open Explore (trim trimChars trimEnd isWhitespace)

theorem trim_within (text : String) : (trim text).toList <:+: text.toList := by
  rw [trim, String.toList_ofList, trimChars, trimEnd]
  have ends := (List.dropWhile_suffix isWhitespace (l := (text.toList.dropWhile isWhitespace).reverse))
  rw [← List.reverse_prefix, List.reverse_reverse] at ends
  exact ends.isInfix.trans (List.dropWhile_suffix isWhitespace).isInfix

theorem contains_trim {prompt text : String} (same : trim prompt = trim text) :
    contains prompt (trim text) = true := by
  rw [contains, ← same]
  exact decide_eq_true (trim_within prompt)

namespace Awaited

variable {awaited : Awaited} {prompt : String} {session : Option String}

theorem onAnotherSession_eq_false {expected : Option String} {text : String}
    (waits : awaited.awaiting = .prompt expected text) :
    awaited.onAnotherSession session = false ↔
      ∀ named, expected = some named → ∀ reported, session = some reported → reported = named := by
  unfold onAnotherSession
  rw [waits]
  cases expected <;> cases session <;> simp

/-- A prompt expectation that has heard nothing lets its text through, and no other. -/
theorem blocks_eq_false {expected : Option String} {text : String}
    (waits : awaited.awaiting = .prompt expected text) (unheard : awaited.heard = none) :
    awaited.blocks prompt session = false ↔
      awaited.onAnotherSession session = false ∧ trim prompt = trim text := by
  unfold blocks
  rw [waits, unheard]
  simp

theorem hears_submitted {blocked : Bool} {heard : Heard}
    (hears : awaited.hears prompt session blocked = some heard) :
    heard = .submitted ↔ blocked = false := by
  unfold Awaited.hears at hears
  cases blocked <;> split at hears <;> split_ifs at hears <;> cases hears <;> simp_all

theorem hears_of_through (passes : awaited.blocks prompt session = false)
    (unheard : awaited.heard = none) : awaited.hears prompt session false = some .submitted := by
  cases waits : awaited.awaiting with
  | resume => simp [blocks, waits] at passes
  | prompt expected text =>
    obtain ⟨-, same⟩ := (blocks_eq_false waits unheard).mp passes
    simp [hears, waits, contains_trim same]

end Awaited

/-- The prompt that a report says was submitted, and the agent it names. -/
def Report.submission (report : Report) : Option (Named × String × Option String) :=
  match report.event with
  | .promptSubmitted prompt session =>
    match report.pane, session with
    | some pane, _ => some (.pane pane, prompt, session)
    | none, some named => some (.session named, prompt, session)
    | none, none => none
  | _ => none

namespace Expectations

variable (expected : Expectations) {agent : Named} {awaited : Awaited} {event : Event}

/-- What an expectation that has heard nothing hears in one step. -/
def hearing (agent : Named) (awaited : Awaited) : Event → Option Heard
  | .take report =>
    match report.submission, report with
    | some (named, prompt, session), _ =>
      if named = agent then
        awaited.hears prompt session (expected.block agent prompt session).isSome
      else none
    | none, ⟨some pane, .sessionStarted session .resume⟩ =>
      if Named.pane pane = agent ∧ awaited.awaiting = .resume session then some .resumed else none
    | none, _ => none
  | _ => none

/-- An expectation after one step that leaves it armed. -/
def told (agent : Named) (event : Event) (awaited : Awaited) : Awaited :=
  if awaited.heard = none then { awaited with heard := expected.hearing agent awaited event }
  else awaited

/-- The expectation that a step arms. -/
def arming : Event → Option (Named × Awaited)
  | .expectResume agent session block =>
    some (agent.named, ⟨expected.next, .resume session, block, none⟩)
  | .expectPrompt agent text block =>
    let session := match agent with
      | .pane _ session => session
      | .codex _ => none
    some (agent.named, ⟨expected.next, .prompt session text, block, none⟩)
  | _ => none

@[simp] theorem armed_mapArmed (named agent : Named) (change : Awaited → Awaited) :
    (expected.mapArmed named change).armed agent =
      if agent = named then (expected.armed agent).map change else expected.armed agent := by
  simp only [mapArmed, armed, Function.update_apply]
  split_ifs with same
  · rw [same]
    cases expected.agents named <;> rfl
  · rfl

theorem armed_expect (named : HookedAgent) (agent : Named) (awaiting : Awaiting) (block : String) :
    (expected.expect named awaiting block).2.armed agent =
      if agent = named.named then
        expected.armed agent ++ [⟨expected.next, awaiting, block, none⟩]
      else expected.armed agent := by
  simp only [expect, armed, Function.update_apply]
  split_ifs with same
  · rw [same, Option.getD_some]
  · rfl

@[simp] theorem armed_drop (expectation : Expectation) (agent : Named) :
    (expected.drop expectation).armed agent =
      if agent = expectation.agent then
        (expected.armed agent).filter fun awaited => awaited.id ≠ expectation.id
      else expected.armed agent := by
  unfold drop
  cases held : expected.agents expectation.agent with
  | none =>
    split_ifs with same
    · rw [same, armed, held]
      rfl
    · rfl
  | some armed =>
    simp only [Expectations.armed, Function.update_apply]
    split_ifs with same none
    · rw [same, held, Option.getD_some, List.isEmpty_iff.mp none]
      rfl
    · rw [same, held]
      rfl
    · rfl

theorem told_id (event : Event) : (expected.told agent event awaited).id = awaited.id := by
  unfold told
  split_ifs <;> rfl

theorem told_of_heard {heard : Heard} (before : awaited.heard = some heard) (event : Event) :
    expected.told agent event awaited = awaited := by
  rw [told, if_neg]
  rw [before]
  nofun

theorem told_of_silent (silent : expected.hearing agent awaited event = none) :
    expected.told agent event awaited = awaited := by
  unfold told
  split_ifs with unheard
  · rw [silent, ← unheard]
  · rfl

theorem map_told_of_silent (silent : ∀ awaited, expected.hearing agent awaited event = none) :
    (expected.armed agent).map (expected.told agent event) = expected.armed agent :=
  (List.map_congr_left fun awaited _ => expected.told_of_silent (silent awaited)).trans
    (List.map_id _)

/-- A report tells the armed expectations of the agent it names what it means to each. -/
theorem armed_take (report : Report) (agent : Named) :
    (expected.take report).2.armed agent =
      (expected.armed agent).map (expected.told agent (.take report)) := by
  have submitted : ∀ named prompt session, report.submission = some (named, prompt, session) →
      (expected.submitted named prompt session).2.armed agent =
        (expected.armed agent).map (expected.told agent (.take report)) := by
    intro named prompt session submits
    rw [Expectations.submitted, armed_mapArmed]
    split_ifs with same
    · refine List.map_congr_left fun awaited _ => ?_
      simp only [told, hearing, submits, same, if_true, Option.isNone_iff_eq_none]
    · refine (expected.map_told_of_silent fun awaited => ?_).symm
      simp only [hearing, submits, if_neg (Ne.symm same)]
  obtain ⟨pane, event⟩ := report
  cases event with
  | sessionStarted session source =>
    cases source with
    | other => exact (expected.map_told_of_silent fun _ => by cases pane <;> rfl).symm
    | resume =>
      cases pane with
      | none => exact (expected.map_told_of_silent fun _ => rfl).symm
      | some pane =>
        show (expected.resumed (.pane pane) session).armed agent = _
        rw [resumed, armed_mapArmed]
        split_ifs with same
        · refine List.map_congr_left fun awaited _ => ?_
          by_cases waits : awaited.awaiting = .resume session
          · simp [told, hearing, Report.submission, same, waits]
          · rw [told_of_silent]
            · simp [waits]
            · simp [hearing, Report.submission, waits]
        · refine (expected.map_told_of_silent fun awaited => ?_).symm
          simp [hearing, Report.submission, Ne.symm same]
  | promptSubmitted prompt session =>
    cases pane with
    | some pane => exact submitted _ _ _ rfl
    | none =>
      cases session with
      | some session => exact submitted _ _ _ rfl
      | none => exact (expected.map_told_of_silent fun _ => rfl).symm

theorem answer_take {report : Report} {prompt : String} {session : Option String}
    (submits : report.submission = some (agent, prompt, session)) :
    (expected.take report).1 = some (expected.block agent prompt session) := by
  obtain ⟨pane, event⟩ := report
  cases event with
  | sessionStarted => cases submits
  | promptSubmitted text on =>
    cases pane <;> cases on <;> cases submits <;> rfl

theorem next_step (event : Event) : (expected.step event).next =
    if (expected.arming event).isSome then expected.next + 1 else expected.next := by
  cases event with
  | expectResume => rfl
  | expectPrompt => rfl
  | drop expectation =>
    simp only [step, drop]
    cases expected.agents expectation.agent <;> rfl
  | take report =>
    obtain ⟨pane, event⟩ := report
    cases event with
    | sessionStarted session source => cases source <;> cases pane <;> rfl
    | promptSubmitted prompt session => cases pane <;> cases session <;> rfl

/-- What is armed after a step was armed before it, or is what the step arms. -/
theorem mem_step (held : awaited ∈ (expected.step event).armed agent) :
    (∃ before ∈ expected.armed agent, awaited = expected.told agent event before) ∨
      expected.arming event = some (agent, awaited) := by
  have kept (silent : ∀ awaited, expected.hearing agent awaited event = none)
      (old : awaited ∈ expected.armed agent) :
      ∃ before ∈ expected.armed agent, awaited = expected.told agent event before :=
    ⟨awaited, old, (expected.told_of_silent (silent awaited)).symm⟩
  have armed (named awaiting block) (same : expected.step event = (expected.expect named awaiting block).2)
      (arms : expected.arming event =
        some (named.named, ⟨expected.next, awaiting, block, none⟩))
      (silent : ∀ awaited, expected.hearing agent awaited event = none) :
      (∃ before ∈ expected.armed agent, awaited = expected.told agent event before) ∨
        expected.arming event = some (agent, awaited) := by
    rw [same, armed_expect] at held
    split_ifs at held with own
    · rcases List.mem_append.mp held with old | new
      · exact .inl (kept silent old)
      · rw [arms, List.mem_singleton.mp new, own]
        exact .inr rfl
    · exact .inl (kept silent held)
  cases event with
  | expectResume named session block => exact armed named _ block rfl rfl fun _ => rfl
  | expectPrompt named text block => exact armed named _ block rfl rfl fun _ => rfl
  | drop expectation =>
    refine .inl (kept (fun _ => rfl) ?_)
    rw [step, armed_drop] at held
    split_ifs at held
    · exact List.mem_of_mem_filter held
    · exact held
  | take report =>
    rw [step, armed_take] at held
    obtain ⟨before, old, same⟩ := List.mem_map.mp held
    exact .inl ⟨before, old, same.symm⟩

theorem arming_id (arms : expected.arming event = some (agent, awaited)) :
    awaited.id = expected.next ∧ awaited.heard = none := by
  cases event <;> cases arms <;> exact ⟨rfl, rfl⟩

/-- Every expectation has an identity of its own. -/
structure Distinct : Prop where
  below : ∀ agent, ∀ awaited ∈ expected.armed agent, awaited.id < expected.next
  apart : ∀ agent, ∀ awaited ∈ expected.armed agent, ∀ other, ∀ later ∈ expected.armed other,
    awaited.id = later.id → agent = other ∧ awaited = later

theorem distinct_new : new.Distinct where
  below _ _ mem := absurd mem List.not_mem_nil
  apart _ _ mem := absurd mem List.not_mem_nil

variable {expected}

theorem next_le_step (event : Event) : expected.next ≤ (expected.step event).next := by
  rw [next_step]
  split_ifs <;> omega

theorem Distinct.step (distinct : expected.Distinct) (event : Event) :
    (expected.step event).Distinct where
  below agent awaited held := by
    rcases expected.mem_step held with ⟨before, old, rfl⟩ | arms
    · rw [told_id]
      exact (distinct.below agent before old).trans_le (next_le_step event)
    · rw [(expected.arming_id arms).1, next_step, arms]
      exact Nat.lt_succ_self _
  apart agent awaited held other later heldLater same := by
    rcases expected.mem_step held with ⟨before, old, rfl⟩ | arms <;>
      rcases expected.mem_step heldLater with ⟨before', old', rfl⟩ | arms'
    · rw [told_id, told_id] at same
      obtain ⟨rfl, rfl⟩ := distinct.apart agent before old other before' old' same
      exact ⟨rfl, rfl⟩
    · rw [told_id, (expected.arming_id arms').1] at same
      exact absurd same (distinct.below agent before old).ne
    · rw [told_id, (expected.arming_id arms).1] at same
      exact absurd same.symm (distinct.below other before' old').ne
    · cases arms.symm.trans arms'
      exact ⟨rfl, rfl⟩

theorem Distinct.run (distinct : expected.Distinct) (events : List Event) :
    (expected.run events).Distinct := by
  induction events generalizing expected with
  | nil => exact distinct
  | cons event events ih => exact ih (distinct.step event)

theorem run_append (events later : List Event) :
    expected.run (events ++ later) = (expected.run events).run later := List.foldl_append

/-- An expectation that heard something, or was dropped since. -/
def Settled (expected : Expectations) (agent : Named) (awaited : Awaited) : Prop :=
  awaited.id < expected.next ∧
    ∀ other, ∀ later ∈ expected.armed other, later.id = awaited.id → other = agent ∧ later = awaited

theorem Distinct.settled (distinct : expected.Distinct) (held : awaited ∈ expected.armed agent) :
    expected.Settled agent awaited :=
  ⟨distinct.below agent awaited held, fun other later mem same =>
    distinct.apart other later mem agent awaited held same⟩

/-- What was heard first stays. -/
theorem Settled.step {heard : Heard} (settled : expected.Settled agent awaited)
    (before : awaited.heard = some heard) (event : Event) :
    (expected.step event).Settled agent awaited := by
  refine ⟨settled.1.trans_le (next_le_step event), fun other later held same => ?_⟩
  rcases expected.mem_step held with ⟨old, mem, rfl⟩ | arms
  · rw [told_id] at same
    obtain ⟨rfl, rfl⟩ := settled.2 other old mem same
    exact ⟨rfl, expected.told_of_heard before event⟩
  · rw [(expected.arming_id arms).1] at same
    exact absurd same.symm settled.1.ne

theorem Settled.run {heard : Heard} (settled : expected.Settled agent awaited)
    (before : awaited.heard = some heard) (events : List Event) :
    (expected.run events).Settled agent awaited := by
  induction events generalizing expected with
  | nil => exact settled
  | cons event events ih => exact ih (settled.step before event)

/-- What an armed expectation heard, it heard in a step of the run that found it armed and
without anything heard. -/
theorem heard_in_run {heard : Heard} {events : List Event}
    (held : awaited ∈ (new.run events).armed agent) (before : awaited.heard = some heard) :
    ∃ past event later, events = past ++ event :: later ∧
      { awaited with heard := none } ∈ (new.run past).armed agent ∧
      (new.run past).hearing agent { awaited with heard := none } event = some heard := by
  induction events using List.reverseRecOn with
  | nil => exact absurd held List.not_mem_nil
  | append_singleton events event ih =>
    rw [run_append] at held
    rcases mem_step _ held with ⟨old, mem, same⟩ | arms
    · cases unheard : old.heard with
      | some said =>
        rw [told_of_heard _ unheard] at same
        subst same
        obtain ⟨past, first, later, split, found⟩ := ih mem
        exact ⟨past, first, later ++ [event], by rw [split, List.append_assoc, List.cons_append], found⟩
      | none =>
        refine ⟨events, event, [], rfl, ?_⟩
        rw [told, if_pos unheard] at same
        have bare : { awaited with heard := none } = old := by rw [same, ← unheard]
        rw [bare]
        refine ⟨mem, ?_⟩
        rw [← before, same]
    · exact absurd ((arming_id _ arms).2.symm.trans before) (by nofun)

theorem hearing_cases {heard : Heard} (hears : expected.hearing agent awaited event = some heard) :
    heard = .resumed ∨ ∃ report prompt session, event = .take report ∧
      report.submission = some (agent, prompt, session) ∧
      awaited.hears prompt session (expected.block agent prompt session).isSome = some heard := by
  cases event with
  | take report =>
    dsimp only [hearing] at hears
    split at hears
    · next named prompt session submits =>
      split_ifs at hears with same
      subst same
      exact .inr ⟨_, prompt, session, rfl, submits, hears⟩
    · split_ifs at hears
      exact .inl (Option.some.inj hears).symm
    · cases hears
  | _ => cases hears

theorem block_eq_none {prompt : String} {session : Option String} :
    expected.block agent prompt session = none ↔
      ∀ awaited ∈ expected.armed agent, awaited.blocks prompt session = false := by
  simp [block]

/-- A prompt of an expectation's agent found it armed with nothing heard, and was answered. -/
def Answered (events : List Event) (agent : Named) (awaited : Awaited) (answer : Option String) :
    Prop :=
  ∃ past report later prompt session, events = past ++ .take report :: later ∧
    report.submission = some (agent, prompt, session) ∧
    { awaited with heard := none } ∈ (new.run past).armed agent ∧
    ((new.run past).take report).1 = some answer

theorem answered_of_heard {heard : Heard} {events : List Event}
    (held : awaited ∈ (new.run events).armed agent) (before : awaited.heard = some heard) :
    heard = .resumed ∨ ∃ answer, Answered events agent awaited answer ∧
      (heard = .submitted ↔ answer = none) := by
  obtain ⟨past, event, later, split, mem, hears⟩ := heard_in_run held before
  rcases hearing_cases hears with resumed | ⟨report, prompt, session, rfl, submits, hears⟩
  · exact .inl resumed
  · refine .inr ⟨_, ⟨past, report, later, prompt, session, split, submits, mem,
      answer_take _ submits⟩, ?_⟩
    rw [Awaited.hears_submitted hears, Option.isSome_eq_false_iff, Option.isNone_iff_eq_none]

theorem submitted_of_answered {events : List Event} (held : awaited ∈ (new.run events).armed agent)
    (through : Answered events agent awaited none) : awaited.heard = some .submitted := by
  obtain ⟨past, report, later, prompt, session, rfl, submits, mem, answer⟩ := through
  rw [answer_take _ submits, Option.some.injEq] at answer
  have passes := block_eq_none.mp answer _ mem
  have hears := Awaited.hears_of_through passes rfl
  -- The step leaves the expectation with what it heard, which stays to the end of the run.
  have after : { awaited with heard := some .submitted } ∈
      ((new.run past).step (.take report)).armed agent := by
    rw [step, armed_take]
    refine List.mem_map.mpr ⟨_, mem, ?_⟩
    rw [told, if_pos rfl]
    simp only [hearing, submits, if_true, answer, Option.isSome_none, hears]
  have settled := ((distinct_new.run past).step (.take report)).settled after
  rw [run_append] at held
  obtain ⟨-, same⟩ := (settled.run rfl later).2 agent awaited held rfl
  rw [same]

/-- What holds of an expectation that is armed after a run: what it blocks and lets through,
what it heard, and what dropping it changes. -/
structure Truthful (events : List Event) (agent : Named) (awaited : Awaited) : Prop where
  waits : (new.run events).wait ⟨agent, awaited.id⟩ = awaited.heard
  resume_blocks : ∀ session, awaited.awaiting = .resume session →
    ∀ report prompt named, report.submission = some (agent, prompt, named) →
      ∃ block, ((new.run events).take report).1 = some (some block)
  lets_through : ∀ session text, awaited.awaiting = .prompt session text → awaited.heard = none →
    ∀ report prompt named, report.submission = some (agent, prompt, named) →
      ((new.run events).take report).1 = some none →
      trim prompt = trim text ∧
        ∀ own, session = some own → ∀ reported, named = some reported → reported = own
  submitted_iff : awaited.heard = some .submitted ↔ Answered events agent awaited none
  stopped : ∀ heard, awaited.heard = some heard → (heard = .stopped ∨ ∃ left, heard = .joined left) →
    ∃ block, Answered events agent awaited (some block)
  first : ∀ heard, awaited.heard = some heard → ∀ later other kept,
    kept ∈ (new.run (events ++ later)).armed other → kept.id = awaited.id →
      other = agent ∧ kept = awaited
  dropped : ∀ other kept, kept ∈ ((new.run events).drop ⟨agent, awaited.id⟩).armed other ↔
    kept ∈ (new.run events).armed other ∧ kept ≠ awaited
  last : ((new.run events).drop ⟨agent, awaited.id⟩).armed agent = [] →
    ∀ report prompt named, report.submission = some (agent, prompt, named) →
      (((new.run events).drop ⟨agent, awaited.id⟩).take report).1 = some none

theorem truthful (events : List Event) (agent : Named) (awaited : Awaited)
    (held : awaited ∈ (new.run events).armed agent) : Truthful events agent awaited := by
  have distinct := distinct_new.run events
  have own : ∀ kept ∈ (new.run events).armed agent, kept.id = awaited.id → kept = awaited :=
    fun kept mem same => (distinct.apart agent kept mem agent awaited held same).2
  constructor
  case waits =>
    unfold wait
    cases found : ((new.run events).armed agent).find? (·.id = awaited.id) with
    | some kept =>
      rw [own kept (List.mem_of_find?_eq_some found) (by simpa using List.find?_some found)]
      rfl
    | none => exact absurd (decide_eq_true rfl) (List.find?_eq_none.mp found awaited held)
  case resume_blocks =>
    intro session waits report prompt named submits
    rw [answer_take _ submits]
    cases passes : (new.run events).block agent prompt named with
    | some block => exact ⟨block, rfl⟩
    | none =>
      have let_through := block_eq_none.mp passes awaited held
      rw [Awaited.blocks, waits] at let_through
      cases let_through
  case lets_through =>
    intro session text waits unheard report prompt named submits answer
    rw [answer_take _ submits, Option.some.injEq] at answer
    obtain ⟨on, same⟩ := (Awaited.blocks_eq_false waits unheard).mp (block_eq_none.mp answer awaited held)
    exact ⟨same, (Awaited.onAnotherSession_eq_false waits).mp on⟩
  case submitted_iff =>
    refine ⟨fun heard => ?_, submitted_of_answered held⟩
    rcases answered_of_heard held heard with never | ⟨answer, answered, through⟩
    · cases never
    · exact through.mp rfl ▸ answered
  case stopped =>
    intro heard said which
    rcases answered_of_heard held said with rfl | ⟨answer, answered, through⟩
    · rcases which with never | ⟨left, never⟩ <;> cases never
    · cases answer with
      | some block => exact ⟨block, answered⟩
      | none =>
        have submitted := through.mpr rfl
        rcases which with never | ⟨left, never⟩ <;> cases submitted.symm.trans never
  case first =>
    intro heard said later other kept mem same
    rw [run_append] at mem
    exact ((distinct.settled held).run said later).2 other kept mem same
  case dropped =>
    intro other kept
    rw [armed_drop]
    dsimp only
    split_ifs with same
    · subst same
      rw [List.mem_filter, decide_eq_true_iff]
      exact and_congr_right fun mem => not_congr ⟨own kept mem, fun same => by rw [same]⟩
    · refine (and_iff_left_of_imp fun mem => ?_).symm
      rintro rfl
      exact same (distinct.apart other kept mem agent kept held rfl).1
  case last =>
    intro empty report prompt named submits
    rw [answer_take _ submits, block_eq_none.mpr]
    rw [empty]
    exact fun _ never => absurd never List.not_mem_nil

/-! A prompt typed to an agent on a session that Herdr reports. -/

def typed : List Event := [.expectPrompt (.pane "pane" (some "mine")) "Hello" "Wait"]

def typedPrompt : Awaited := ⟨0, .prompt (some "mine") "Hello", "Wait", none⟩

theorem typed_armed : typedPrompt ∈ (new.run typed).armed (.pane "pane") := by decide

/-- A stranger's prompt is blocked and the typed one let through, which the expectation hears. -/
theorem truthful_typed :
    (∃ block, ((new.run typed).take ⟨some "pane", .promptSubmitted "Bye" (some "mine")⟩).1 =
      some (some block)) ∧
    ∀ heard ∈ (new.run (typed ++ [.take ⟨some "pane", .promptSubmitted " Hello\n" (some "mine")⟩])).armed
      (.pane "pane"), heard.heard = some .submitted := by
  have before := truthful typed _ typedPrompt typed_armed
  refine ⟨?_, ?_⟩
  · cases answer : (new.run typed).block (.pane "pane") "Bye" (some "mine") with
    | some block => exact ⟨block, (answer_take _ rfl).trans (congrArg some answer)⟩
    | none =>
      have same := (before.lets_through (some "mine") "Hello" rfl rfl
        ⟨some "pane", .promptSubmitted "Bye" (some "mine")⟩ "Bye" _ rfl
        ((answer_take _ rfl).trans (congrArg some answer))).1
      exact absurd same (by decide)
  · decide

/-- A hook that names no session lets the typed prompt through, whatever session it is on. -/
theorem unnamed_session_passes : ¬∀ events agent awaited, awaited ∈ (new.run events).armed agent →
    ∀ own text, awaited.awaiting = .prompt (some own) text → awaited.heard = none →
      ∀ report prompt named, report.submission = some (agent, prompt, named) →
        ((new.run events).take report).1 = some none →
          trim prompt = trim text ∧ named = some own := by
  intro only
  have named := (only typed _ typedPrompt typed_armed "mine" "Hello" rfl rfl
    ⟨some "pane", .promptSubmitted "Hello" none⟩ "Hello" none rfl (by decide)).2
  cases named

end Expectations

end ProgressiveReviewer.Hooks
