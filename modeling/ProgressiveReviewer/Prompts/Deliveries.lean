import ProgressiveReviewer.Prompts.Courier

/-! What every interleaving of the courier keeps: nothing is typed under a hold, and each prompt
is typed in its turn and has one outcome. -/

namespace ProgressiveReviewer.Prompts

open Library

namespace Courier

variable {courier later : Courier} {action : Action}

/-- The prompts that have no outcome and may still get one. -/
def unsettled (courier : Courier) : List QueuedPrompt :=
  courier.thread.unreported ++ courier.parcels ++ courier.worker.unreported

/-! ## The invariant -/

structure Inv (courier : Courier) : Prop where
  holds : courier.gate.holds = courier.live.card
  sending : courier.gate.sending = courier.thread.isSending
  queued : courier.gate.queued = courier.unsettled.length + courier.undelivered.length +
    courier.thread.uncounted + courier.worker.uncounted
  order : (courier.typed ++ courier.thread.untyped ++ courier.parcels ++
    courier.worker.unreported).Sublist courier.handed
  settled : ∀ prompt, courier.handed.count prompt =
    (courier.outcomes.map Prod.fst).count prompt + courier.unsettled.count prompt +
      courier.unwound.count prompt + courier.undelivered.count prompt
  once : (courier.handed.map QueuedPrompt.outcome).Nodup
  lost : courier.thread.panicked = false → courier.unwound = [] ∧ courier.undelivered = []

theorem inv_start : Inv start where
  holds := rfl
  sending := rfl
  queued := rfl
  order := List.Sublist.refl _
  settled _ := rfl
  once := List.nodup_nil
  lost _ := ⟨rfl, rfl⟩

theorem mayPanic_counted {thread : CourierThread} (panics : thread.mayPanic = true) :
    thread.unreported.length + thread.uncounted = 1 ∧ thread.panicked = false := by
  cases thread <;> first | exact ⟨rfl, rfl⟩ | cases panics

/-- A panicking thread drops the prompt it had. -/
theorem inv_panic (inv : Inv courier) (panics : courier.thread.mayPanic = true) :
    Inv (courier.step .panic) := by
  obtain ⟨counted, -⟩ := mayPanic_counted panics
  refine ⟨inv.holds, rfl, ?_, ?_, fun prompt => ?_, inv.once, nofun⟩
  · have queued := inv.queued
    simp only [unsettled, List.length_append] at queued
    simp only [unsettled, step, PromptGate.sent, CourierThread.unreported, CourierThread.uncounted,
      List.nil_append, List.length_append]
    omega
  · refine List.Sublist.trans ?_ inv.order
    simp only [step, CourierThread.untyped, List.append_nil]
    exact ((List.sublist_append_left _ _).append (List.Sublist.refl _)).append (List.Sublist.refl _)
  · have settled := inv.settled prompt
    simp only [unsettled, step, CourierThread.unreported, List.count_append, List.nil_append] at settled ⊢
    omega

theorem inv_step (inv : Inv courier) (may : May courier action) : Inv (courier.step action) := by
  obtain ⟨holds, sending, queued, order, settled, once, lost⟩ := inv
  cases action with
  | send prompt =>
    obtain ⟨idle, fresh⟩ := may
    refine ⟨holds, sending, ?_, ?_, fun other => ?_, ?_, lost⟩
    · simp only [unsettled, idle, step, PromptGate.queue, Sending.unreported, Sending.uncounted,
        List.length_append, List.length_singleton, List.length_nil] at queued ⊢
      omega
    · simp only [idle, Sending.unreported, List.append_nil] at order
      exact order.append (List.Sublist.refl _)
    · have settled := settled other
      simp only [unsettled, idle, step, Sending.unreported, List.count_append, List.count_nil] at settled ⊢
      omega
    · simp only [step, List.map_append]
      exact once.append (List.nodup_singleton _) (List.disjoint_singleton.mpr fresh)
  | push prompt =>
    obtain ⟨counted, -⟩ := may
    refine ⟨holds, sending, ?_, ?_, fun other => ?_, once, lost⟩
    · simp only [unsettled, counted, step, Sending.unreported, Sending.uncounted, List.length_append,
        List.length_singleton, List.length_nil] at queued ⊢
      omega
    · simpa only [counted, step, Sending.unreported, List.append_assoc, List.append_nil] using order
    · have settled := settled other
      simp only [unsettled, counted, step, Sending.unreported, List.count_append, List.count_nil] at settled ⊢
      omega
  | refuse prompt =>
    obtain ⟨counted, -⟩ := may
    refine ⟨holds, sending, ?_, ?_, fun other => ?_, once, lost⟩
    · simp only [unsettled, counted, step, Sending.unreported, Sending.uncounted, List.length_append,
        List.length_singleton, List.length_nil] at queued ⊢
      omega
    · simp only [counted, step, Sending.unreported, List.append_nil] at order ⊢
      exact (List.sublist_append_left _ _).trans order
    · have settled := settled other
      simp only [unsettled, counted, step, Sending.unreported, List.count_append, List.count_nil,
        List.map_append, List.map_cons, List.map_nil] at settled ⊢
      omega
  | unqueue prompt =>
    simp only [May] at may
    refine ⟨holds, sending, ?_, ?_, fun other => ?_, once, lost⟩
    · simp only [unsettled, may, step, PromptGate.unqueue, Sending.unreported, Sending.uncounted] at queued ⊢
      omega
    · simpa only [may, step, Sending.unreported] using order
    · simpa only [unsettled, may, step, Sending.unreported] using settled other
  | receive prompt =>
    obtain ⟨receiving, head⟩ := may
    obtain ⟨rest, parcels⟩ : ∃ rest, courier.parcels = prompt :: rest := by
      cases parcels : courier.parcels with
      | nil => rw [parcels] at head; cases head
      | cons first rest =>
        rw [parcels] at head
        exact ⟨rest, congrArg (· :: rest) (Option.some.inj head)⟩
    refine ⟨holds, ?_, ?_, ?_, fun other => ?_, once, fun _ => lost (by rw [receiving]; rfl)⟩
    · rw [receiving] at sending
      exact sending
    · simp only [unsettled, receiving, parcels, step, CourierThread.unreported,
        CourierThread.uncounted, List.tail_cons, List.length_append, List.length_cons,
        List.length_nil] at queued ⊢
      omega
    · simpa only [receiving, parcels, step, CourierThread.untyped, List.append_nil, List.tail_cons,
        List.append_assoc, List.cons_append, List.nil_append] using order
    · have settled := settled other
      simp only [unsettled, receiving, parcels, step, CourierThread.unreported, List.tail_cons,
        List.nil_append, List.cons_append] at settled ⊢
      exact settled
  | begin prompt =>
    obtain ⟨waiting, -⟩ := may
    rw [waiting] at order lost
    simp only [unsettled, waiting] at queued settled
    exact ⟨holds, rfl, queued, order, settled, once, fun _ => lost rfl⟩
  | check prompt =>
    simp only [May] at may
    rw [may] at sending order lost
    simp only [unsettled, may] at queued settled
    by_cases withdrawn : prompt.isWithdrawn courier.withdrawn = true
    · simp only [step, withdrawn, if_true]
      refine ⟨holds, sending, queued, List.Sublist.trans ?_ order, settled, once, fun _ => lost rfl⟩
      exact (((List.Sublist.refl _).append (List.nil_sublist _)).append (List.Sublist.refl _)).append
        (List.Sublist.refl _)
    · simp only [step, withdrawn, if_false, Bool.false_eq_true]
      exact ⟨holds, sending, queued, order, settled, once, fun _ => lost rfl⟩
  | type prompt result =>
    simp only [May] at may
    rw [may] at sending order lost
    simp only [unsettled, may] at queued settled
    refine ⟨holds, sending, queued, ?_, settled, once, fun _ => lost rfl⟩
    simpa only [step, CourierThread.untyped, List.append_nil] using order
  | report prompt result =>
    simp only [May] at may
    rw [may] at sending order lost
    refine ⟨holds, sending, ?_, order, fun other => ?_, once, fun _ => lost rfl⟩
    · simp only [unsettled, may, step, CourierThread.unreported, CourierThread.uncounted,
        List.length_append, List.length_singleton, List.length_nil] at queued ⊢
      omega
    · have settled := settled other
      simp only [unsettled, may, step, CourierThread.unreported, List.count_append, List.count_nil,
        List.map_append, List.map_cons, List.map_nil] at settled ⊢
      omega
  | finish prompt =>
    simp only [May] at may
    rw [may] at order lost
    simp only [unsettled, may] at queued settled
    refine ⟨holds, rfl, ?_, order, settled, once, fun _ => lost rfl⟩
    simp only [unsettled, step, PromptGate.sent, CourierThread.unreported,
      CourierThread.uncounted] at queued ⊢
    omega
  | panic => exact inv_panic ⟨holds, sending, queued, order, settled, once, lost⟩ may
  | close =>
    simp only [May] at may
    rw [may] at sending
    refine ⟨holds, sending, ?_, ?_, fun other => ?_, once, nofun⟩
    · simp only [unsettled, may, step, CourierThread.unreported, CourierThread.uncounted,
        List.length_append, List.length_nil] at queued ⊢
      omega
    · refine List.Sublist.trans ?_ order
      simp only [may, step, CourierThread.untyped, List.append_nil]
      exact (List.sublist_append_left _ _).append (List.Sublist.refl _)
    · have settled := settled other
      simp only [unsettled, may, step, CourierThread.unreported, List.count_append,
        List.count_nil] at settled ⊢
      omega
  | withdraw flag => exact ⟨holds, sending, queued, order, settled, once, lost⟩
  | hold id =>
    refine ⟨?_, sending, queued, order, settled, once, lost⟩
    simp only [step, PromptGate.hold, Finset.card_insert_of_notMem may, holds]
  | release id =>
    refine ⟨?_, sending, queued, order, settled, once, lost⟩
    simp only [step, PromptGate.release, Finset.card_erase_of_mem may, holds]
  | drained => exact ⟨holds, sending, queued, order, settled, once, lost⟩

theorem Reachable.inv (reached : Reachable courier) : Inv courier :=
  Reaches.invariant inv_start (fun _ _ inv may => inv_step inv may) reached

/-! ## Held prompts -/

/-- Runs in which some hold lives after each step. -/
def HeldOn (courier : Courier) : Courier → Prop :=
  Reaches step (fun courier action => May courier action ∧ (courier.step action).live.Nonempty)
    courier

theorem quiet_step (inv : Inv courier) (may : May courier action) (held : courier.live.Nonempty)
    (quiet : courier.gate.sending = false) :
    (courier.step action).typed = courier.typed ∧ (courier.step action).gate.sending = false := by
  cases action with
  | begin prompt =>
    have none : courier.live.card = 0 := inv.holds.symm.trans may.2
    exact absurd none held.card_pos.ne'
  | type prompt result =>
    have typing : courier.thread = .typing prompt := may
    have sending := inv.sending
    rw [quiet, typing] at sending
    cases sending
  | finish | panic => exact ⟨rfl, rfl⟩
  | send | push | refuse | unqueue | receive | check | report | close | withdraw | hold
  | release | drained => exact ⟨rfl, quiet⟩

theorem typed_of_held (inv : Inv courier) (held : courier.live.Nonempty)
    (quiet : courier.gate.sending = false) (run : HeldOn courier later) :
    later.typed = courier.typed := by
  have kept : Inv later ∧ later.live.Nonempty ∧ later.gate.sending = false ∧
      later.typed = courier.typed := by
    induction run with
    | start => exact ⟨inv, held, quiet, rfl⟩
    | step action _ may ih =>
      obtain ⟨now, lives, still, same⟩ := ih
      obtain ⟨typed, silent⟩ := quiet_step now may.1 lives still
      exact ⟨inv_step now may.1, may.2, silent, typed.trans same⟩
  exact kept.2.2.2

/-! ## Withdrawn prompts -/

/-- Withdrawn, and the courier has not found the flag clear. -/
structure Withdrawn (courier : Courier) (prompt : QueuedPrompt) : Prop where
  flag : prompt.isWithdrawn courier.withdrawn = true
  untyped : prompt ∉ courier.typed
  unread : courier.thread ≠ .typing prompt

theorem isWithdrawn_mono {prompt : QueuedPrompt} {flags more : Finset Nat} (grown : flags ⊆ more)
    (withdrawn : prompt.isWithdrawn flags = true) : prompt.isWithdrawn more = true := by
  unfold QueuedPrompt.isWithdrawn at *
  cases named : prompt.cancelled with
  | none => rw [named] at withdrawn; cases withdrawn
  | some flag =>
    rw [named] at withdrawn
    exact decide_eq_true (grown (of_decide_eq_true withdrawn))

theorem withdrawn_step {prompt : QueuedPrompt} (withdrawn : Withdrawn courier prompt)
    (may : May courier action) : Withdrawn (courier.step action) prompt := by
  obtain ⟨flag, untyped, unread⟩ := withdrawn
  cases action with
  | check other =>
    refine ⟨flag, untyped, fun typing => ?_⟩
    by_cases set : other.isWithdrawn courier.withdrawn = true
    · rw [step, if_pos set] at typing
      cases typing
    · rw [step, if_neg set] at typing
      cases typing
      exact set flag
  | type other result =>
    refine ⟨flag, fun typed => ?_, nofun⟩
    rcases List.mem_append.mp typed with typed | typed
    · exact untyped typed
    · obtain rfl := List.mem_singleton.mp typed
      exact unread may
  | withdraw other =>
    exact ⟨isWithdrawn_mono (Finset.subset_insert _ _) flag, untyped, unread⟩
  | receive | begin | report | finish | panic | close => exact ⟨flag, untyped, nofun⟩
  | send | push | refuse | unqueue | hold | release | drained => exact ⟨flag, untyped, unread⟩

theorem untyped_of_withdrawn {prompt : QueuedPrompt} (withdrawn : Withdrawn courier prompt)
    (run : Reaches step May courier later) : prompt ∉ later.typed := by
  have still : Withdrawn later prompt := by
    induction run with
    | start => exact withdrawn
    | step action _ may ih => exact withdrawn_step ih may
  exact still.untyped

/-! ## Outcomes -/

/-- How many steps of the worker and of the courier's thread the prompts handed over still take. -/
def remaining (courier : Courier) : Nat :=
  courier.thread.left + 6 * courier.parcels.length + courier.worker.left

theorem remaining_step (delivers : action.delivers = true) (may : May courier action) :
    (courier.step action).remaining < courier.remaining := by
  cases action with
  | push prompt =>
    simp only [remaining, may.1, step, Sending.left, List.length_append, List.length_singleton]
    omega
  | refuse prompt =>
    simp only [remaining, may.1, step, Sending.left]
    omega
  | receive prompt =>
    obtain ⟨receiving, head⟩ := may
    cases parcels : courier.parcels with
    | nil => rw [parcels] at head; cases head
    | cons first rest =>
      simp only [remaining, receiving, parcels, step, CourierThread.left, List.tail_cons,
        List.length_cons]
      omega
  | begin prompt =>
    simp only [remaining, may.1, step, CourierThread.left]
    omega
  | check prompt =>
    have begun : courier.thread = .begun prompt := may
    by_cases set : prompt.isWithdrawn courier.withdrawn = true
    all_goals
      simp only [remaining, begun, step, set, if_true, if_false, Bool.false_eq_true,
        CourierThread.left]
      omega
  | unqueue prompt =>
    have refused : courier.worker = .refused prompt := may
    simp only [remaining, refused, step, Sending.left]
    omega
  | type prompt result =>
    have typing : courier.thread = .typing prompt := may
    simp only [remaining, typing, step, CourierThread.left]
    omega
  | report prompt result =>
    have reporting : courier.thread = .reporting prompt result := may
    simp only [remaining, reporting, step, CourierThread.left]
    omega
  | finish prompt =>
    have reported : courier.thread = .reported prompt := may
    simp only [remaining, reported, step, CourierThread.left]
    omega
  | send | panic | close | withdraw | hold | release | drained => cases delivers

/-- While no hold lives and no prompt made it panic, the courier gets on with what it has. -/
theorem exists_delivers (inv : Inv courier) (free : courier.live = ∅)
    (fine : courier.thread.panicked = false) (left : courier.unsettled ≠ []) :
    ∃ action, action.delivers = true ∧ May courier action := by
  cases at_ : courier.thread with
  | waiting prompt =>
    exact ⟨.begin prompt, rfl, at_, inv.holds.trans (by rw [free]; rfl)⟩
  | begun prompt => exact ⟨.check prompt, rfl, at_⟩
  | typing prompt => exact ⟨.type prompt (.ok ()), rfl, at_⟩
  | reporting prompt result => exact ⟨.report prompt result, rfl, at_⟩
  | reported prompt => exact ⟨.finish prompt, rfl, at_⟩
  | unwinding | stopped => rw [at_] at fine; cases fine
  | receiving =>
    cases parcels : courier.parcels with
    | cons prompt rest => exact ⟨.receive prompt, rfl, at_, by rw [parcels]; rfl⟩
    | nil =>
      cases worker : courier.worker with
      | counted prompt => exact ⟨.push prompt, rfl, worker, by rw [at_]; nofun⟩
      | idle | refused => simp [unsettled, at_, parcels, worker, CourierThread.unreported,
          Sending.unreported] at left

theorem queued_pos (inv : Inv courier) (may : May courier action)
    (counts : action.countsOff = true) : 0 < courier.gate.queued := by
  have queued := inv.queued
  cases action with
  | unqueue prompt =>
    have refused : courier.worker = .refused prompt := may
    rw [refused] at queued
    simp only [Sending.uncounted] at queued
    omega
  | finish prompt =>
    have reported : courier.thread = .reported prompt := may
    rw [reported] at queued
    simp only [CourierThread.uncounted] at queued
    omega
  | panic =>
    have counted := (mayPanic_counted may).1
    simp only [unsettled, List.length_append] at queued
    omega
  | send | push | refuse | receive | begin | check | type | report | close | withdraw | hold
  | release | drained => cases counts

/-- What the courier keeps at every point of a run. -/
structure Orderly (courier : Courier) : Prop where
  held : courier.live.Nonempty → May courier .drained → ∀ later, HeldOn courier later →
    later.typed = courier.typed
  order : courier.typed.Sublist courier.handed
  distinct : (courier.handed.map QueuedPrompt.outcome).Nodup
  outcome : (courier.outcomes.map Prod.fst ++ courier.unsettled ++ courier.unwound ++
    courier.undelivered).Perm courier.handed
  lost : courier.thread.panicked = false → courier.unwound = [] ∧ courier.undelivered = []
  goesOn : courier.live = ∅ → courier.thread.panicked = false → courier.unsettled ≠ [] →
    ∃ action, action.delivers = true ∧ May courier action
  ends : ∀ action, action.delivers = true → May courier action →
    (courier.step action).remaining < courier.remaining
  withdrawn : ∀ prompt, Withdrawn courier prompt → ∀ later, Reaches step May courier later →
    prompt ∉ later.typed
  queued : courier.gate.queued = courier.unsettled.length + courier.undelivered.length +
    courier.thread.uncounted + courier.worker.uncounted
  noUnderflow : ∀ action, action.countsOff = true → May courier action → 0 < courier.gate.queued

/-- Under every interleaving nothing is typed while a hold lives and what was on its way is sent;
prompts are typed in order, have one outcome each, and are not typed once withdrawn in time. -/
theorem courier_orderly (reached : Reachable courier) : Orderly courier where
  held held drained _ run := typed_of_held reached.inv held drained run
  order := by
    refine List.Sublist.trans ?_ reached.inv.order
    rw [List.append_assoc, List.append_assoc]
    exact List.sublist_append_left _ _
  distinct := reached.inv.once
  outcome := by
    refine List.perm_iff_count.mpr fun prompt => ?_
    rw [reached.inv.settled prompt, List.count_append, List.count_append, List.count_append]
  lost := reached.inv.lost
  goesOn := exists_delivers reached.inv
  ends _ := remaining_step
  withdrawn _ withdrawn _ run := untyped_of_withdrawn withdrawn run
  queued := reached.inv.queued
  noUnderflow _ counts may := queued_pos reached.inv may counts

section Samples

def samplePrompt : QueuedPrompt := ⟨"pane", "A comment waits", some 0, 0⟩

/-- Withdrawn after the courier read the flag. -/
def withdrawnLate : Courier :=
  [.send samplePrompt, .push samplePrompt, .receive samplePrompt, .begin samplePrompt,
    .check samplePrompt, .withdraw 0].foldl step start

def reportedLate : Courier :=
  [.type samplePrompt (.ok ()), .report samplePrompt (.ok ())].foldl step withdrawnLate

/-- A prompt withdrawn before it was typed is typed, and counted once it has its outcome. -/
theorem withdrawn_prompt_typed : Reachable withdrawnLate ∧
    samplePrompt.isWithdrawn withdrawnLate.withdrawn = true ∧ samplePrompt ∉ withdrawnLate.typed ∧
    Reaches step May withdrawnLate reportedLate ∧ samplePrompt ∈ reportedLate.typed ∧
    reportedLate.unsettled = [] ∧ reportedLate.gate.queued = 1 := by
  have reached : Reachable withdrawnLate := Reaches.foldl .start
    ⟨⟨rfl, List.not_mem_nil⟩, ⟨rfl, nofun⟩, ⟨rfl, rfl⟩, ⟨rfl, rfl⟩, rfl, trivial, trivial⟩
  have typed : Reaches step May withdrawnLate reportedLate :=
    Reaches.foldl .start ⟨rfl, rfl, trivial⟩
  exact ⟨reached, rfl, by decide, typed, by decide, rfl, rfl⟩

/-- Held while the prompt waits. -/
def heldBack : Courier :=
  [.hold 0, .send samplePrompt, .push samplePrompt, .receive samplePrompt].foldl step start

/-- Another hold begins and the first one ends. -/
def stillHeld : Courier := [.hold 1, .release 0].foldl step heldBack

theorem held_prompt_untyped : Reachable heldBack ∧ stillHeld.typed = [] ∧
    stillHeld.gate.queued = 1 := by
  have reached : Reachable heldBack := Reaches.foldl .start
    ⟨Finset.notMem_empty _, ⟨rfl, List.not_mem_nil⟩, ⟨rfl, nofun⟩, ⟨rfl, rfl⟩, trivial⟩
  have second : 1 ∉ heldBack.live := by decide
  have first : 0 ∈ (heldBack.step (.hold 1)).live := by decide
  have run : HeldOn heldBack stillHeld := Reaches.foldl .start
    ⟨⟨second, 0, first⟩, ⟨first, 1, by decide⟩, trivial⟩
  exact ⟨reached, (courier_orderly reached).held ⟨0, by decide⟩ rfl _ run, rfl⟩

end Samples

end Courier

end ProgressiveReviewer.Prompts
