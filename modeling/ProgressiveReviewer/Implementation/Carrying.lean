import ProgressiveReviewer.Implementation.Session
import ProgressiveReviewer.Prompts.Deliveries

/-! Where the prompts of implementation requests are while the worker and the courier take them
on: each in one place, and what was typed is being reported, was reported or was lost. -/

namespace ProgressiveReviewer.Prompts

/-- The prompt in the thread's hands whose flag it has not read. -/
def CourierThread.unchecked : CourierThread → List QueuedPrompt
  | .waiting prompt | .begun prompt => [prompt]
  | _ => []

namespace Courier

open Library

variable {courier : Courier} {prompt : QueuedPrompt} {result : Except PromptError Unit}

/-- The prompts handed over whose flag is still to be read. -/
def unchecked (courier : Courier) : List QueuedPrompt :=
  courier.thread.unchecked ++ courier.parcels ++ courier.worker.unreported

theorem unchecked_sublist : courier.unchecked.Sublist courier.unsettled := by
  refine ((List.Sublist.append ?_ (.refl _)).append (.refl _))
  cases courier.thread <;> first | exact .refl _ | exact List.nil_sublist _

namespace Inv

variable (inv : Inv courier)
include inv

theorem handed_of_unsettled (mem : prompt ∈ courier.unsettled) : prompt ∈ courier.handed := by
  have settled := inv.settled prompt
  have := List.count_pos_iff.mpr mem
  exact List.count_pos_iff.mp (by omega)

theorem handed_of_typed (mem : prompt ∈ courier.typed) : prompt ∈ courier.handed := by
  refine inv.order.subset ?_
  simp only [List.append_assoc]
  exact List.mem_append_left _ mem

theorem count_le_one (prompt : QueuedPrompt) : courier.handed.count prompt ≤ 1 :=
  List.nodup_iff_count_le_one.mp (inv.once.of_map _) prompt

/-- A prompt without an outcome has none yet. -/
theorem not_reported (mem : prompt ∈ courier.unsettled) :
    prompt ∉ courier.outcomes.map Prod.fst := fun reported => by
  have settled := inv.settled prompt
  have := List.count_pos_iff.mpr mem
  have := List.count_pos_iff.mpr reported
  have := inv.count_le_one prompt
  omega

/-- The prompt in the thread's hands is nowhere else. -/
theorem not_unchecked (mem : prompt ∈ courier.thread.unreported)
    (read : courier.thread.unchecked = []) : prompt ∉ courier.unchecked := fun waits => by
  have settled := inv.settled prompt
  have held := List.count_pos_iff.mpr mem
  have waiting := List.count_pos_iff.mpr waits
  have := inv.count_le_one prompt
  simp only [unsettled, unchecked, read, List.nil_append, List.count_append] at settled waiting
  omega

/-- A typed prompt is not typed again. -/
theorem not_unchecked_of_typed (mem : prompt ∈ courier.typed) : prompt ∉ courier.unchecked := by
  intro waits
  have order := inv.order
  have := inv.count_le_one prompt
  have typed := List.count_pos_iff.mpr mem
  have waiting := List.count_pos_iff.mpr waits
  have bound := order.count_le prompt
  have unread : courier.thread.unchecked.count prompt ≤ courier.thread.untyped.count prompt := by
    cases courier.thread <;> exact (List.Sublist.count_le prompt (by
      first | exact .refl _ | exact List.nil_sublist _))
  simp only [unchecked, List.count_append] at bound waiting
  omega

end Inv

end Courier

end ProgressiveReviewer.Prompts

namespace ProgressiveReviewer.Implementation

open Library Prompts
open Explore hiding PromptError outcome

namespace Phase

/-- The courier has the prompt, or had it. -/
def IsCarried : Phase → Prop
  | .handed | .reported _ => True
  | _ => False

end Phase

/-- The prompts of the session, by name, and the courier that carries them. -/
structure Carried (courier : Courier) (requests : SortedMap Nat PromptRequest) (next : Nat) :
    Prop where
  inv : Courier.Inv courier
  given : ∀ id prompt, requests.lookup id = some prompt → id < next
  flags : ∀ flag ∈ courier.withdrawn, flag < next
  handed : ∀ queued ∈ courier.handed, queued.outcome < next ∧
    ∀ prompt, requests.lookup queued.outcome = some prompt →
      queued = prompt.queued queued.outcome ∧ (prompt.phase = .handed ∨
        (∃ result, prompt.phase = .reported result) ∧ queued ∈ courier.outcomes.map Prod.fst)
  reporting : ∀ queued result, courier.thread = .reporting queued result →
    (queued ∈ courier.typed ↔ result ≠ .error .cancelled)
  typed : ∀ id prompt, requests.lookup id = some prompt → prompt.queued id ∈ courier.typed →
    (∃ result, courier.thread = .reporting (prompt.queued id) result) ∨
      (∃ result, prompt.phase = .reported result ∧ result ≠ .error .cancelled) ∨
      prompt.queued id ∈ courier.unwound
  apart : ∀ id prompt other later, requests.lookup id = some prompt →
    requests.lookup other = some later → prompt.attempt = later.attempt → id = other

namespace Carried

variable {courier : Courier} {requests : SortedMap Nat PromptRequest} {next id : Nat}
  {prompt : PromptRequest}

theorem lookup_start : (SortedMap.empty : SortedMap Nat PromptRequest).lookup id ≠ some prompt := by
  rw [SortedMap.lookup_empty]
  exact Option.some_ne_none _ ∘ Eq.symm

theorem start : Carried .start .empty 0 where
  inv := Courier.inv_start
  given _ _ found := absurd found lookup_start
  flags _ absent := absurd absent (Finset.notMem_empty _)
  handed _ absent := absurd absent List.not_mem_nil
  reporting _ _ absent := CourierThread.noConfusion absent
  typed _ _ found := absurd found lookup_start
  apart _ _ _ _ found := absurd found lookup_start

variable (carried : Carried courier requests next)
include carried

/-- A prompt in the courier's hands is the one of its name. -/
theorem phase_of_unsettled (found : requests.lookup id = some prompt)
    (mem : prompt.queued id ∈ courier.unsettled) : prompt.phase = .handed := by
  obtain ⟨-, known⟩ := carried.handed _ (carried.inv.handed_of_unsettled mem)
  obtain ⟨-, phase⟩ := known prompt found
  exact phase.resolve_right fun ended => carried.inv.not_reported mem ended.2

theorem isCarried_of_handed (found : requests.lookup id = some prompt)
    (mem : prompt.queued id ∈ courier.handed) : prompt.phase.IsCarried := by
  obtain ⟨-, known⟩ := carried.handed _ mem
  rcases (known prompt found).2 with phase | ⟨⟨result, phase⟩, -⟩ <;> rw [phase] <;> trivial

/-- A prompt that the courier never had moves to any phase. -/
theorem move (found : requests.lookup id = some prompt) (waits : ¬prompt.phase.IsCarried)
    (phase : Phase) : Carried courier (requests.insert id { prompt with phase := phase }) next := by
  have kept : ∀ other later, (requests.insert id { prompt with phase := phase }).lookup other =
      some later → ∃ earlier, requests.lookup other = some earlier ∧ later.attempt = earlier.attempt ∧
        later.queued other = earlier.queued other ∧ (id ≠ other → later = earlier) := by
    intro other later saved
    rw [SortedMap.lookup_insert] at saved
    split_ifs at saved with same
    · cases saved
      exact ⟨prompt, same ▸ found, rfl, rfl, fun apart => absurd same apart⟩
    · exact ⟨later, saved, rfl, rfl, fun _ => rfl⟩
  have unhanded : prompt.queued id ∉ courier.handed := fun mem =>
    waits (carried.isCarried_of_handed found mem)
  refine ⟨carried.inv, fun other later saved => ?_, carried.flags, fun queued mem => ?_,
    carried.reporting, fun other later saved mem => ?_, fun one first two second saved saved' same => ?_⟩
  · obtain ⟨earlier, held, -⟩ := kept other later saved
    exact carried.given other earlier held
  · obtain ⟨below, known⟩ := carried.handed queued mem
    refine ⟨below, fun later saved => ?_⟩
    obtain ⟨earlier, held, -, same, unchanged⟩ := kept _ later saved
    obtain ⟨equal, rest⟩ := known earlier held
    by_cases own : id = queued.outcome
    · cases found.symm.trans (own ▸ held)
      exact absurd (own ▸ equal ▸ mem) unhanded
    · rw [unchanged own]
      exact ⟨equal, rest⟩
  · obtain ⟨earlier, held, -, same, unchanged⟩ := kept other later saved
    by_cases own : id = other
    · subst own
      cases found.symm.trans held
      exact absurd (carried.inv.handed_of_typed (same ▸ mem)) unhanded
    · rw [unchanged own] at mem ⊢
      exact carried.typed other earlier held mem
  · obtain ⟨earlier, held, attempt, -⟩ := kept one first saved
    obtain ⟨earlier', held', attempt', -⟩ := kept two second saved'
    exact carried.apart one earlier two earlier' held held' (attempt.symm.trans (same.trans attempt'))

/-- Names below the first one not given may be given up. -/
theorem next_name : Carried courier requests (next + 1) where
  inv := carried.inv
  given id prompt found := Nat.lt_succ_of_lt (carried.given id prompt found)
  flags flag mem := Nat.lt_succ_of_lt (carried.flags flag mem)
  handed queued mem := ⟨Nat.lt_succ_of_lt (carried.handed queued mem).1, (carried.handed queued mem).2⟩
  reporting := carried.reporting
  typed := carried.typed
  apart := carried.apart

/-- A step of the courier that has no outcome of the session's. -/
theorem later {later : Courier} (inv : Courier.Inv later)
    (flags : ∀ flag ∈ later.withdrawn, flag < next)
    (handed : ∀ queued ∈ later.handed, queued ∈ courier.handed ∨
      queued.outcome < next ∧ requests.lookup queued.outcome = none)
    (outcomes : ∀ entry ∈ courier.outcomes, entry ∈ later.outcomes)
    (reporting : ∀ queued result, later.thread = .reporting queued result →
      (queued ∈ later.typed ↔ result ≠ .error .cancelled))
    (typed : ∀ queued ∈ later.typed, queued ∈ courier.typed ∨
      ∃ result, later.thread = .reporting queued result)
    (ended : ∀ id prompt, requests.lookup id = some prompt → ∀ result,
      courier.thread = .reporting (prompt.queued id) result →
        later.thread = .reporting (prompt.queued id) result ∨ prompt.queued id ∈ later.unwound)
    (unwound : ∀ queued ∈ courier.unwound, queued ∈ later.unwound) :
    Carried later requests next := by
  refine ⟨inv, carried.given, flags, fun queued mem => ?_, reporting, fun id prompt found mem => ?_,
    carried.apart⟩
  · rcases handed queued mem with old | ⟨below, none⟩
    · obtain ⟨below, known⟩ := carried.handed queued old
      refine ⟨below, fun prompt found => (known prompt found).imp_right (Or.imp_right fun ended => ?_)⟩
      obtain ⟨entry, mem, same⟩ := List.mem_map.mp ended.2
      exact ⟨ended.1, List.mem_map.mpr ⟨entry, outcomes entry mem, same⟩⟩
    · exact ⟨below, fun prompt found => by cases none.symm.trans found⟩
  · rcases typed _ mem with old | now
    · rcases carried.typed id prompt found old with ⟨result, thread⟩ | reported | lost
      · exact (ended id prompt found result thread).imp (fun thread => ⟨result, thread⟩) .inr
      · exact .inr (.inl reported)
      · exact .inr (.inr (unwound _ lost))
    · exact .inl now

theorem withdraw {flag : Nat} (below : flag < next) :
    Carried (courier.step (.withdraw flag)) requests next :=
  carried.later (Courier.inv_step carried.inv trivial)
    (fun other mem => (Finset.mem_insert.mp mem).elim (fun same => same ▸ below) (carried.flags other))
    (fun _ mem => .inl mem) (fun _ mem => mem) carried.reporting (fun _ mem => .inl mem)
    (fun _ _ _ _ thread => .inl thread) fun _ mem => mem

end Carried

theorem carried_courier {system : System} {action : Prompts.Action}
    (carried : Carried system.courier system.requests system.next)
    (may : Courier.May system.courier action) (elsewhere : system.Elsewhere action) :
    Carried (system.courier.step action) system.requests system.next := by
  have inv := Courier.inv_step carried.inv may
  cases action with
  | send prompt =>
    refine carried.later inv carried.flags (fun queued mem => ?_) (fun _ mem => mem) carried.reporting
      (fun _ mem => .inl mem) (fun _ _ _ _ thread => .inl thread) fun _ mem => mem
    rcases List.mem_append.mp mem with old | new
    · exact .inl old
    · exact .inr (List.mem_singleton.mp new ▸ elsewhere.2.1)
  | push | unqueue | hold | release | drained =>
    exact carried.later inv carried.flags (fun _ mem => .inl mem) (fun _ mem => mem)
      carried.reporting (fun _ mem => .inl mem) (fun _ _ _ _ thread => .inl thread) fun _ mem => mem
  | refuse prompt =>
    exact carried.later inv carried.flags (fun _ mem => .inl mem)
      (fun _ mem => List.mem_append_left _ mem) carried.reporting (fun _ mem => .inl mem)
      (fun _ _ _ _ thread => .inl thread) fun _ mem => mem
  | receive prompt =>
    exact carried.later inv carried.flags (fun _ mem => .inl mem) (fun _ mem => mem)
      (fun _ _ absent => CourierThread.noConfusion absent) (fun _ mem => .inl mem)
      (fun _ _ _ _ thread => by cases may.1.symm.trans thread) fun _ mem => mem
  | begin prompt =>
    exact carried.later inv carried.flags (fun _ mem => .inl mem) (fun _ mem => mem)
      (fun _ _ absent => CourierThread.noConfusion absent) (fun _ mem => .inl mem)
      (fun _ _ _ _ thread => by cases may.1.symm.trans thread) fun _ mem => mem
  | check prompt =>
    have may : system.courier.thread = .begun prompt := may
    have waits : prompt ∈ system.courier.unchecked := by
      rw [Courier.unchecked, may]
      exact List.mem_append_left _ (List.mem_append_left _ List.mem_cons_self)
    refine carried.later inv carried.flags (fun _ mem => .inl mem) (fun _ mem => mem)
      (fun queued result thread => ?_) (fun _ mem => .inl mem)
      (fun _ _ _ _ thread => by cases may.symm.trans thread) fun _ mem => mem
    have thread : (if prompt.isWithdrawn system.courier.withdrawn = true
        then CourierThread.reporting prompt (.error .cancelled)
        else .typing prompt) = .reporting queued result := thread
    split_ifs at thread
    cases thread
    exact ⟨fun typed => absurd waits (carried.inv.not_unchecked_of_typed typed), fun no => absurd rfl no⟩
  | type prompt result =>
    have may : system.courier.thread = .typing prompt := may
    refine carried.later inv carried.flags (fun _ mem => .inl mem) (fun _ mem => mem)
      (fun queued result' thread => ?_) (fun queued mem => ?_)
      (fun _ _ _ _ thread => by cases may.symm.trans thread) fun _ mem => mem
    · cases thread
      exact ⟨fun _ => elsewhere, fun _ => List.mem_append_right _ List.mem_cons_self⟩
    · rcases List.mem_append.mp mem with old | new
      · exact .inl old
      · exact .inr ⟨result, by rw [List.mem_singleton.mp new]; rfl⟩
  | report prompt result =>
    have may : system.courier.thread = .reporting prompt result := may
    refine carried.later inv carried.flags (fun _ mem => .inl mem)
      (fun _ mem => List.mem_append_left _ mem) (fun _ _ absent => CourierThread.noConfusion absent)
      (fun _ mem => .inl mem) (fun id ours found _ thread => ?_) fun _ mem => mem
    cases may.symm.trans thread
    cases (show system.requests.lookup id = none from elsewhere).symm.trans found
  | finish prompt =>
    have may : system.courier.thread = .reported prompt := may
    exact carried.later inv carried.flags (fun _ mem => .inl mem) (fun _ mem => mem)
      (fun _ _ absent => CourierThread.noConfusion absent) (fun _ mem => .inl mem)
      (fun _ _ _ _ thread => by cases may.symm.trans thread) fun _ mem => mem
  | panic =>
    refine carried.later inv carried.flags (fun _ mem => .inl mem) (fun _ mem => mem)
      (fun _ _ absent => CourierThread.noConfusion absent) (fun _ mem => .inl mem)
      (fun id ours _ _ thread => .inr (List.mem_append_right _ ?_)) fun _ mem =>
        List.mem_append_left _ mem
    rw [thread]
    exact List.mem_cons_self
  | close =>
    have may : system.courier.thread = .unwinding := may
    exact carried.later inv carried.flags (fun _ mem => .inl mem) (fun _ mem => mem)
      (fun _ _ absent => CourierThread.noConfusion absent) (fun _ mem => .inl mem)
      (fun _ _ _ _ thread => by cases may.symm.trans thread) fun _ mem => mem
  | withdraw flag => exact carried.withdraw elsewhere.1

namespace Carried

variable {courier : Courier} {requests : SortedMap Nat PromptRequest} {next id : Nat}
  {prompt : PromptRequest}

section

variable (carried : Carried courier requests next)
include carried

/-- A new prompt has the first name not given. -/
theorem insert_new (fresh : ∀ id other, requests.lookup id = some other →
      other.attempt ≠ prompt.attempt) :
    Carried courier (requests.insert next prompt) (next + 1) := by
  have kept : ∀ other later, (requests.insert next prompt).lookup other = some later →
      (other = next ∧ later = prompt) ∨ (other < next ∧ requests.lookup other = some later) := by
    intro other later saved
    rw [SortedMap.lookup_insert] at saved
    split_ifs at saved with same
    · exact .inl ⟨same.symm, (Option.some.inj saved).symm⟩
    · exact .inr ⟨carried.given other later saved, saved⟩
  have named := carried.next_name
  refine ⟨carried.inv, fun other later saved => ?_, named.flags, fun queued mem => ?_,
    carried.reporting, fun other later saved mem => ?_, fun one first two second saved saved' same => ?_⟩
  · rcases kept other later saved with ⟨rfl, -⟩ | ⟨below, -⟩
    · exact Nat.lt_succ_self _
    · exact Nat.lt_succ_of_lt below
  · obtain ⟨below, known⟩ := carried.handed queued mem
    refine ⟨Nat.lt_succ_of_lt below, fun later saved => ?_⟩
    rcases kept _ later saved with ⟨same, -⟩ | ⟨-, held⟩
    · omega
    · exact known later held
  · rcases kept other later saved with ⟨rfl, -⟩ | ⟨-, held⟩
    · exact absurd (carried.handed _ (carried.inv.handed_of_typed mem)).1 (Nat.lt_irrefl _)
    · exact carried.typed other later held mem
  · rcases kept one first saved with ⟨rfl, rfl⟩ | ⟨-, held⟩ <;>
      rcases kept two second saved' with ⟨rfl, rfl⟩ | ⟨-, held'⟩
    · rfl
    · exact absurd same.symm (fresh two second held')
    · exact absurd same (fresh one first held)
    · exact carried.apart one first two second held held' same

/-- The worker hands a prompt to the courier. -/
theorem hand (found : requests.lookup id = some prompt) (waits : ¬prompt.phase.IsCarried)
    (idle : courier.worker = .idle) :
    Carried (courier.step (.send (prompt.queued id)))
      (requests.insert id { prompt with phase := .handed }) next := by
  have moved := carried.move found waits .handed
  have unnamed : ∀ queued ∈ courier.handed, queued.outcome ≠ id := fun queued mem same => by
    obtain ⟨-, known⟩ := carried.handed queued mem
    obtain ⟨equal, -⟩ := known prompt (same ▸ found)
    exact waits (carried.isCarried_of_handed found (same ▸ equal ▸ mem))
  have may : Courier.May courier (.send (prompt.queued id)) := by
    refine ⟨idle, fun mem => ?_⟩
    obtain ⟨queued, held, same⟩ := List.mem_map.mp mem
    exact unnamed queued held same
  refine ⟨Courier.inv_step carried.inv may, moved.given, moved.flags, fun queued mem => ?_,
    carried.reporting, moved.typed, moved.apart⟩
  rcases List.mem_append.mp mem with old | new
  · exact moved.handed queued old
  · obtain rfl := List.mem_singleton.mp new
    refine ⟨carried.given id prompt found, fun later saved => ?_⟩
    have saved : (requests.insert id { prompt with phase := .handed }).lookup id = some later := saved
    rw [SortedMap.lookup_insert_self] at saved
    cases saved
    exact ⟨rfl, .inl rfl⟩

/-- A prompt of the session's gets its outcome, which is reported as it is or as unknown. -/
theorem settle {result reported : Except PromptError Unit} {later : Courier}
    (found : requests.lookup id = some prompt) (inv : Courier.Inv later)
    (withdrawn : later.withdrawn = courier.withdrawn) (handed : later.handed = courier.handed)
    (outcomes : later.outcomes = courier.outcomes ++ [(prompt.queued id, result)])
    (typed : later.typed = courier.typed) (unwound : later.unwound = courier.unwound)
    (thread : ∀ queued result, later.thread = .reporting queued result →
      courier.thread = .reporting queued result)
    (others : ∀ queued result, courier.thread = .reporting queued result →
      queued = prompt.queued id ∨ later.thread = .reporting queued result)
    (honest : prompt.queued id ∈ courier.typed → reported ≠ .error .cancelled) :
    Carried later (requests.insert id { prompt with phase := .reported reported }) next := by
  have kept : ∀ other later, (requests.insert id { prompt with phase := .reported reported }).lookup
      other = some later → (other = id ∧ later = { prompt with phase := .reported reported }) ∨
        (id ≠ other ∧ requests.lookup other = some later) := by
    intro other later saved
    rw [SortedMap.lookup_insert] at saved
    split_ifs at saved with same
    · exact .inl ⟨same.symm, (Option.some.inj saved).symm⟩
    · exact .inr ⟨same, saved⟩
  refine ⟨inv, fun other later saved => ?_, withdrawn ▸ carried.flags, fun queued mem => ?_,
    fun queued result reporting => ?_, fun other later saved mem => ?_,
    fun one first two second saved saved' same => ?_⟩
  · rcases kept other later saved with ⟨rfl, -⟩ | ⟨-, held⟩
    · exact carried.given _ prompt found
    · exact carried.given other later held
  · obtain ⟨below, known⟩ := carried.handed queued (handed ▸ mem)
    refine ⟨below, fun later saved => ?_⟩
    rw [outcomes, List.map_append]
    rcases kept _ later saved with ⟨same, rfl⟩ | ⟨-, held⟩
    · obtain ⟨equal, -⟩ := known prompt (same ▸ found)
      refine ⟨equal, .inr ⟨⟨reported, rfl⟩, List.mem_append_right _ ?_⟩⟩
      rw [equal, same]
      exact List.mem_cons_self
    · exact (known later held).imp_right (Or.imp_right fun ended =>
        ⟨ended.1, List.mem_append_left _ ended.2⟩)
  · exact typed ▸ carried.reporting queued result (thread queued result reporting)
  · rw [typed] at mem
    rcases kept other later saved with ⟨rfl, rfl⟩ | ⟨apart, held⟩
    · exact .inr (.inl ⟨reported, rfl, honest mem⟩)
    · rw [unwound]
      refine (carried.typed other later held mem).imp_left fun ⟨result, reporting⟩ => ⟨result, ?_⟩
      refine (others _ result reporting).resolve_left fun same => apart ?_
      exact (congrArg QueuedPrompt.outcome same).symm
  · have back : ∀ other later, (requests.insert id { prompt with phase := .reported reported }).lookup
        other = some later → ∃ earlier, requests.lookup other = some earlier ∧
          earlier.attempt = later.attempt := fun other later saved => by
      rcases kept other later saved with ⟨rfl, rfl⟩ | ⟨-, held⟩
      · exact ⟨prompt, found, rfl⟩
      · exact ⟨later, held, rfl⟩
    obtain ⟨earlier, held, attempt⟩ := back one first saved
    obtain ⟨earlier', held', attempt'⟩ := back two second saved'
    exact carried.apart one earlier two earlier' held held' (attempt.trans (same.trans attempt'.symm))

end

/-- The courier's thread reports the outcome of a prompt of the session's. -/
theorem report {result reported : Except PromptError Unit} (carried : Carried courier requests next)
    (found : requests.lookup id = some prompt)
    (may : Courier.May courier (.report (prompt.queued id) result))
    (same : reported = result ∨ ∃ error, reported = .error (.unknown error)) :
    Carried (courier.step (.report (prompt.queued id) result))
      (requests.insert id { prompt with phase := .reported reported }) next := by
  have reporting : courier.thread = .reporting (prompt.queued id) result := may
  refine carried.settle found (Courier.inv_step carried.inv may) rfl rfl rfl rfl rfl
    (fun _ _ absent => CourierThread.noConfusion absent) (fun queued _ thread => .inl ?_) fun typed => ?_
  · cases reporting.symm.trans thread
    rfl
  · have honest := (carried.reporting _ result reporting).mp typed
    rcases same with rfl | ⟨error, rfl⟩
    · exact honest
    · exact fun absent => by cases absent

/-- The courier stopped before it got a prompt of the session's. -/
theorem turnBack {reported : Except PromptError Unit} (carried : Carried courier requests next)
    (found : requests.lookup id = some prompt)
    (may : Courier.May courier (.refuse (prompt.queued id))) :
    Carried (courier.step (.refuse (prompt.queued id)))
      (requests.insert id { prompt with phase := .reported reported }) next := by
  have counted : courier.worker = .counted (prompt.queued id) := may.1
  refine carried.settle found (Courier.inv_step carried.inv may) rfl rfl rfl rfl rfl
    (fun _ _ thread => thread) (fun _ _ thread => .inr thread) fun typed => ?_
  refine absurd ?_ (carried.inv.not_unchecked_of_typed typed)
  rw [Courier.unchecked, counted]
  exact List.mem_append_right _ List.mem_cons_self

end Carried

end ProgressiveReviewer.Implementation
