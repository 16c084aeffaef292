import ProgressiveReviewer.DiffSearch.Search
import Mathlib.Logic.Relation
import ProgressiveReviewer.DiffSearch.Shown

/-! The background search worker (`text-search/src/worker.rs`). Viewers submit requests to it, or
cancel, at any time; a new request takes the place of the one that waits and ends the search of
the one before. -/

namespace ProgressiveReviewer.DiffSearch.Background

open Library Hunks

section Pieces

variable (engine : Engine) (query : List Char) (documents : List Document)

/-- What a search row by row finds between its checks for a newer request. -/
def rowPieces : List (List Match) :=
  documents.zipIdx.flatMap fun (document, documentIndex) =>
    document.rows.zipIdx.flatMap fun (range, row) =>
      [] :: (byteRanges engine query (range.cut document.text)).map fun found =>
        [⟨documentIndex, row, found.start⟩]

def linePieces (literal : Literal UInt8) : List (List Match) :=
  documents.zipIdx.flatMap fun (document, documentIndex) =>
    [] :: (engine.matchedLines literal document.text).flatMap fun (offset, line) =>
      (byteRanges engine query line).map fun found =>
        ((document.position (offset + found.start)).map (Match.mk documentIndex)).toList

/-- What the worker's search finds after each of its checks. -/
def pieces : List (List Match) :=
  [] :: if '\n' ∈ query then rowPieces engine query documents
    else ((pattern engine query).elim [] (linePieces engine query documents)) ++ [[]]

theorem flatten_rowPieces :
    (rowPieces engine query documents).flatten = searchUnless engine query documents := by
  rw [rowPieces, ← List.flatMap_id, List.flatMap_assoc]
  refine List.flatMap_congr fun document _ => ?_
  rw [List.flatMap_assoc]
  refine List.flatMap_congr fun row _ => ?_
  rw [List.flatMap_cons, id_eq, List.nil_append, List.flatMap_map]
  exact List.map_eq_flatMap.symm

theorem flatten_linePieces (literal : Literal UInt8) :
    (linePieces engine query documents literal).flatten =
      documents.zipIdx.flatMap fun document =>
        (engine.matchedLines literal document.1.text).flatMap fun line =>
          (byteRanges engine query line.2).filterMap fun found =>
            (document.1.position (line.1 + found.start)).map (Match.mk document.2) := by
  rw [linePieces, ← List.flatMap_id, List.flatMap_assoc]
  refine List.flatMap_congr fun document _ => ?_
  rw [List.flatMap_cons, id_eq, List.nil_append, List.flatMap_assoc]
  refine List.flatMap_congr fun line _ => ?_
  rw [List.filterMap_eq_flatMap_toList]
  exact List.flatMap_map _ _ _

/-- A search that no newer request ends finds every match. -/
theorem flatten_pieces :
    (pieces engine query documents).flatten = engineSearch engine query documents := by
  unfold pieces engineSearch
  split_ifs with lines
  · rw [List.flatten_cons, List.nil_append, flatten_rowPieces]
  · cases pattern engine query with
    | none => rfl
    | some literal =>
      rw [List.flatten_cons, List.nil_append, List.flatten_append, List.flatten_singleton,
        List.append_nil]
      exact flatten_linePieces engine query documents literal

end Pieces

/-- What the worker's thread is in the middle of. A request goes by the number of its
submission. -/
inductive Phase where
  /-- Takes the lock of the queue next. -/
  | ready
  /-- Waits for a change of the queue. -/
  | asleep
  /-- The matches so far, and what is found after each check that is left. -/
  | searching (generation : Nat) (request : Request) (found : List Match)
      (left : List (List Match))
  | delivering (generation : Nat) (results : Results)
  | ended

structure Worker where
  generation : Nat
  pending : Option (Nat × Request)
  stopped : Bool
  /-- The submission that holds the lock of the queue. -/
  submitting : Option (Option Request)
  phase : Phase
  /-- Every submission so far, a cancellation being an empty one. -/
  submitted : List (Option Request)
  delivered : List (Nat × Results)

namespace Worker

def start : Worker := ⟨0, none, false, none, .ready, [], []⟩

variable (worker : Worker)

/-- Wake the worker's thread, if it waits. -/
def notifyOne : Worker :=
  { worker with phase := match worker.phase with
      | .asleep => .ready
      | phase => phase }

end Worker

inductive Step (engine : Engine) (rowsAt : Address → List Bytes) : Worker → Worker → Prop where
  /-- A submission takes the lock, and ends the search that runs. -/
  | submits {worker : Worker} (request : Option Request) (free : worker.submitting = none)
      (running : worker.stopped = false) :
      Step engine rowsAt worker { worker with
        generation := worker.generation + 1
        submitting := some request
        submitted := worker.submitted ++ [request] }
  | submitted {worker : Worker} {request : Option Request}
      (own : worker.submitting = some request) :
      Step engine rowsAt worker (Worker.notifyOne { worker with
        pending := request.map fun request => (worker.generation, request)
        submitting := none })
  /-- The worker is dropped. -/
  | stops {worker : Worker} (free : worker.submitting = none) (running : worker.stopped = false) :
      Step engine rowsAt worker (Worker.notifyOne { worker with
        generation := worker.generation + 1
        pending := none
        stopped := true
        submitted := worker.submitted ++ [none] })
  | sleeps {worker : Worker} (ready : worker.phase = .ready) (free : worker.submitting = none)
      (none : worker.pending = none) (running : worker.stopped = false) :
      Step engine rowsAt worker { worker with phase := .asleep }
  /-- A wait can end without a notification. -/
  | wakes {worker : Worker} (asleep : worker.phase = .asleep) :
      Step engine rowsAt worker { worker with phase := .ready }
  | ends {worker : Worker} (ready : worker.phase = .ready) (free : worker.submitting = none)
      (stopped : worker.stopped = true) : Step engine rowsAt worker { worker with phase := .ended }
  | takes {worker : Worker} {generation : Nat} {request : Request} (ready : worker.phase = .ready)
      (free : worker.submitting = none) (pending : worker.pending = some (generation, request))
      (running : worker.stopped = false) :
      Step engine rowsAt worker { worker with
        pending := none
        phase := .searching generation request []
          (pieces engine request.query (request.documents.map (documentAt rowsAt))) }
  /-- A check finds no newer request. -/
  | finds {worker : Worker} {generation : Nat} {request : Request} {found piece : List Match}
      {left : List (List Match)}
      (at_ : worker.phase = .searching generation request found (piece :: left))
      (newest : worker.generation = generation) :
      Step engine rowsAt worker { worker with
        phase := .searching generation request (found ++ piece) left }
  /-- A check finds a newer one: what was found is dropped. -/
  | cancels {worker : Worker} {generation : Nat} {request : Request} {found piece : List Match}
      {left : List (List Match)}
      (at_ : worker.phase = .searching generation request found (piece :: left))
      (newer : worker.generation ≠ generation) :
      Step engine rowsAt worker { worker with phase := .ready }
  | completes {worker : Worker} {generation : Nat} {request : Request} {found : List Match}
      (at_ : worker.phase = .searching generation request found []) :
      Step engine rowsAt worker { worker with
        phase := .delivering generation ⟨request.id, found⟩ }
  | delivers {worker : Worker} {generation : Nat} {results : Results}
      (at_ : worker.phase = .delivering generation results) :
      Step engine rowsAt worker { worker with
        phase := .ready
        delivered := worker.delivered ++ [(generation, results)] }

def Reachable (engine : Engine) (rowsAt : Address → List Bytes) (worker : Worker) : Prop :=
  Relation.ReflTransGen (Step engine rowsAt) Worker.start worker

end ProgressiveReviewer.DiffSearch.Background

/-! The background worker delivers complete results, of requests in the order of their
submissions; it never loses the newest request, and never delivers one that a newer submission
took the place of. -/

namespace ProgressiveReviewer.DiffSearch.Background

open Library Hunks

variable {engine : Engine} {rowsAt : Address → List Bytes}

namespace Phase

/-- The submission that the worker works on. -/
def working : Phase → List Nat
  | searching generation _ _ _ | delivering generation _ => [generation]
  | _ => []

/-- The worker has made the last check of a submission. -/
def Checked (generation : Nat) : Phase → Prop
  | searching own _ _ [] | delivering own _ => own = generation
  | _ => False

/-- The worker is to deliver a request. -/
def Carries (engine : Engine) (rowsAt : Address → List Bytes) (generation : Nat)
    (request : Request) : Phase → Prop
  | searching own carried found left => own = generation ∧ carried = request ∧
      found ++ left.flatten = (request.results engine rowsAt).matches
  | delivering own results => own = generation ∧ results = request.results engine rowsAt
  | _ => False

end Phase

namespace Worker

variable (worker : Worker)

def Asked (generation : Nat) (request : Request) : Prop :=
  ∃ index, generation = index + 1 ∧ worker.submitted[index]? = some (some request)

/-- The submissions that were delivered, or are to be, in their order. -/
def order : List Nat :=
  worker.delivered.map Prod.fst ++ worker.phase.working ++ worker.pending.toList.map Prod.fst ++
    if worker.submitting.isSome then [worker.generation] else []

structure Inv (engine : Engine) (rowsAt : Address → List Bytes) : Prop where
  count : worker.submitted.length = worker.generation
  ascending : worker.order.Pairwise (· < ·)
  bounded : ∀ generation ∈ worker.order, generation ≤ worker.generation
  delivered : ∀ item ∈ worker.delivered, ∃ request, worker.Asked item.1 request ∧
    item.2 = request.results engine rowsAt
  working : ∀ generation ∈ worker.phase.working, ∃ request, worker.Asked generation request ∧
    worker.phase.Carries engine rowsAt generation request
  pending : ∀ generation request, worker.pending = some (generation, request) →
    worker.Asked generation request
  latest : ∀ request, worker.submitting = some request → worker.submitted.getLast? = some request
  newest : ∀ request, worker.submitted.getLast? = some (some request) →
    worker.submitting.isSome ∨ worker.pending = some (worker.generation, request) ∨
      worker.phase.Carries engine rowsAt worker.generation request ∨
        (worker.generation, request.results engine rowsAt) ∈ worker.delivered
  asleep : worker.phase = .asleep → worker.pending = none ∧ worker.stopped = false
  stopped : worker.stopped = true → worker.pending = none ∧ worker.submitting = none

variable {worker}

theorem Asked.later {generation : Nat} {request : Request} (asked : worker.Asked generation request)
    {after : Worker} {more : List (Option Request)}
    (submitted : after.submitted = worker.submitted ++ more) : after.Asked generation request := by
  obtain ⟨index, rfl, held⟩ := asked
  refine ⟨index, rfl, ?_⟩
  rw [submitted, List.getElem?_append_left (List.getElem?_eq_some_iff.mp held).1, held]

theorem asked_last {request : Request} (count : worker.submitted.length = worker.generation)
    (latest : worker.submitted.getLast? = some (some request)) :
    worker.Asked worker.generation request := by
  rw [List.getLast?_eq_getElem?] at latest
  have some := (List.getElem?_eq_some_iff.mp latest).1
  exact ⟨worker.submitted.length - 1, by omega, latest⟩

theorem inv_start : start.Inv engine rowsAt := by
  refine ⟨rfl, .nil, ?_, ?_, ?_, ?_, ?_, ?_, ?_, ?_⟩ <;> simp [start, order, Phase.working]

theorem working_notifyOne : worker.notifyOne.phase.working = worker.phase.working := by
  cases phase : worker.phase <;> simp [notifyOne, phase, Phase.working]

theorem carries_notifyOne {generation : Nat} {request : Request} :
    worker.notifyOne.phase.Carries engine rowsAt generation request ↔
      worker.phase.Carries engine rowsAt generation request := by
  cases phase : worker.phase <;> simp [notifyOne, phase, Phase.Carries]

theorem notifyOne_ne_asleep : worker.notifyOne.phase ≠ .asleep := by
  cases phase : worker.phase <;> simp [notifyOne, phase]

theorem inv_submits (inv : worker.Inv engine rowsAt) (request : Option Request)
    (free : worker.submitting = none) (running : worker.stopped = false) :
    Worker.Inv { worker with
      generation := worker.generation + 1
      submitting := some request
      submitted := worker.submitted ++ [request] } engine rowsAt := by
  have order : Worker.order { worker with
      generation := worker.generation + 1
      submitting := some request
      submitted := worker.submitted ++ [request] } = worker.order ++ [worker.generation + 1] := by
    simp [Worker.order, free]
  refine ⟨by simp [inv.count], ?_, ?_, fun item mem => ?_, fun generation mem => ?_,
    fun generation request held => (inv.pending generation request held).later rfl, ?_, ?_,
    inv.asleep, fun stopped => by simp [running] at stopped⟩
  · rw [order, List.pairwise_append]
    refine ⟨inv.ascending, List.pairwise_singleton _ _, fun before mem after single => ?_⟩
    rw [List.mem_singleton.mp single]
    exact Nat.lt_succ_of_le (inv.bounded before mem)
  · rw [order]
    intro generation mem
    rcases List.mem_append.mp mem with mem | mem
    · exact Nat.le_succ_of_le (inv.bounded generation mem)
    · exact (List.mem_singleton.mp mem).le
  · obtain ⟨asked, held, equal⟩ := inv.delivered item mem
    exact ⟨asked, held.later rfl, equal⟩
  · obtain ⟨asked, held, carries⟩ := inv.working generation mem
    exact ⟨asked, held.later rfl, carries⟩
  · intro own held
    cases held
    exact List.getLast?_concat
  · exact fun _ _ => .inl rfl

/-- A submission that holds the lock of the queue leaves its request there. -/
theorem inv_submitted (inv : worker.Inv engine rowsAt) {request : Option Request}
    (own : worker.submitting = some request) :
    Worker.Inv (notifyOne { worker with
      pending := request.map fun request => (worker.generation, request)
      submitting := none }) engine rowsAt := by
  have sub : List.Sublist (notifyOne { worker with
      pending := request.map fun request => (worker.generation, request)
      submitting := none }).order worker.order := by
    rw [Worker.order, working_notifyOne, Worker.order, own]
    simp only [notifyOne, Option.isSome_none, Option.isSome_some, if_true, Bool.false_eq_true,
      if_false, List.append_nil]
    rw [List.append_assoc _ _ [worker.generation]]
    refine (List.Sublist.refl _).append ?_
    cases request with
    | none => exact List.nil_sublist _
    | some request => exact List.sublist_append_right _ _
  refine ⟨inv.count, inv.ascending.sublist sub, fun generation mem =>
    inv.bounded generation (sub.subset mem), inv.delivered, fun generation mem => ?_, ?_, ?_,
    fun request last => ?_, fun asleep => absurd asleep notifyOne_ne_asleep,
    fun stopped => by simp [(inv.stopped stopped).2] at own⟩
  · rw [working_notifyOne] at mem
    obtain ⟨asked, held, carries⟩ := inv.working generation mem
    exact ⟨asked, held, carries_notifyOne.mpr carries⟩
  · intro generation held pending
    have latest := inv.latest request own
    cases request with
    | none => cases pending
    | some request =>
      cases pending
      exact asked_last inv.count latest
  · intro held none
    cases none
  · have latest := inv.latest _ own
    rw [Option.some.inj (latest.symm.trans last)]
    exact .inr (.inl rfl)

theorem inv_stops (inv : worker.Inv engine rowsAt) (free : worker.submitting = none) :
    Worker.Inv (notifyOne { worker with
      generation := worker.generation + 1
      pending := none
      stopped := true
      submitted := worker.submitted ++ [none] }) engine rowsAt := by
  have sub : List.Sublist (notifyOne { worker with
      generation := worker.generation + 1
      pending := none
      stopped := true
      submitted := worker.submitted ++ [none] }).order worker.order := by
    rw [Worker.order, working_notifyOne, Worker.order, free]
    simp only [notifyOne, Option.isSome_none, Bool.false_eq_true, if_false, List.append_nil,
      Option.toList_none, List.map_nil]
    exact List.sublist_append_left _ _
  refine ⟨by simp [notifyOne, inv.count], inv.ascending.sublist sub, fun generation mem =>
    Nat.le_succ_of_le (inv.bounded generation (sub.subset mem)), fun item mem => ?_,
    fun generation mem => ?_, fun generation request held => (by cases held), ?_,
    fun request last => ?_, fun asleep => absurd asleep notifyOne_ne_asleep, fun _ => ⟨rfl, free⟩⟩
  · obtain ⟨asked, held, equal⟩ := inv.delivered item mem
    exact ⟨asked, held.later rfl, equal⟩
  · rw [working_notifyOne] at mem
    obtain ⟨asked, held, carries⟩ := inv.working generation mem
    exact ⟨asked, held.later rfl, carries_notifyOne.mpr carries⟩
  · intro request held
    have held : worker.submitting = some request := held
    simp [free] at held
  · have last : (worker.submitted ++ [none]).getLast? = some (some request) := last
    simp at last

/-- A step of the thread that leaves the queue and the submissions as they are. -/
theorem inv_phase (inv : worker.Inv engine rowsAt) {phase : Phase}
    (sub : List.Sublist phase.working worker.phase.working)
    (carries : ∀ generation request, worker.phase.Carries engine rowsAt generation request →
      generation ∈ phase.working → phase.Carries engine rowsAt generation request)
    (kept : ∀ request, worker.phase.Carries engine rowsAt worker.generation request →
      phase.Carries engine rowsAt worker.generation request)
    (asleep : phase = .asleep → worker.pending = none ∧ worker.stopped = false) :
    Worker.Inv { worker with phase := phase } engine rowsAt := by
  have order : List.Sublist (Worker.order { worker with phase := phase }) worker.order :=
    (((List.Sublist.refl _).append sub).append (.refl _)).append (.refl _)
  refine ⟨inv.count, inv.ascending.sublist order, fun generation mem =>
    inv.bounded generation (order.subset mem), inv.delivered, fun generation mem => ?_, inv.pending,
    inv.latest, fun request last => ?_, asleep, inv.stopped⟩
  · obtain ⟨request, asked, held⟩ := inv.working generation (sub.subset mem)
    exact ⟨request, asked, carries generation request held mem⟩
  · exact (inv.newest request last).imp_right (.imp_right (.imp_left (kept request)))

theorem inv_takes (inv : worker.Inv engine rowsAt) {generation : Nat} {request : Request}
    (ready : worker.phase = .ready) (free : worker.submitting = none)
    (pending : worker.pending = some (generation, request)) (running : worker.stopped = false) :
    Worker.Inv { worker with
      pending := none
      phase := .searching generation request []
        (pieces engine request.query (request.documents.map (documentAt rowsAt))) }
      engine rowsAt := by
  have carries : Phase.Carries engine rowsAt generation request (.searching generation request []
      (pieces engine request.query (request.documents.map (documentAt rowsAt)))) :=
    ⟨rfl, rfl, flatten_pieces _ _ _⟩
  have order : Worker.order { worker with
      pending := none
      phase := .searching generation request []
        (pieces engine request.query (request.documents.map (documentAt rowsAt))) } =
      worker.order := by
    simp [Worker.order, ready, pending, Phase.working]
  refine ⟨inv.count, order ▸ inv.ascending, order ▸ inv.bounded, inv.delivered,
    fun own mem => ?_, fun _ _ held => (by cases held), inv.latest, fun last held => ?_,
    fun asleep => (by cases asleep), fun stopped => by simp [running] at stopped⟩
  · rw [List.mem_singleton.mp mem]
    exact ⟨request, inv.pending generation request pending, carries⟩
  · have newest := inv.newest last held
    rw [free, pending, ready] at newest
    rcases newest with under | waits | works | done
    · cases under
    · cases waits
      exact .inr (.inr (.inl carries))
    · cases works
    · exact .inr (.inr (.inr done))

theorem inv_completes (inv : worker.Inv engine rowsAt) {generation : Nat} {request : Request}
    {found : List Match} (at_ : worker.phase = .searching generation request found []) :
    Worker.Inv { worker with phase := .delivering generation ⟨request.id, found⟩ }
      engine rowsAt := by
  have carries : ∀ own asked, worker.phase.Carries engine rowsAt own asked →
      Phase.Carries engine rowsAt own asked (.delivering generation ⟨request.id, found⟩) := by
    rw [at_]
    rintro own asked ⟨rfl, rfl, equal⟩
    rw [List.flatten_nil, List.append_nil] at equal
    exact ⟨rfl, by rw [equal]; rfl⟩
  exact inv_phase inv (by rw [at_]; rfl) (fun own asked held _ => carries own asked held)
    (fun asked held => carries _ asked held) (fun asleep => by cases asleep)

theorem inv_delivers (inv : worker.Inv engine rowsAt) {generation : Nat} {results : Results}
    (at_ : worker.phase = .delivering generation results) :
    Worker.Inv { worker with
      phase := .ready
      delivered := worker.delivered ++ [(generation, results)] } engine rowsAt := by
  have order : Worker.order { worker with
      phase := .ready
      delivered := worker.delivered ++ [(generation, results)] } = worker.order := by
    simp [Worker.order, at_, Phase.working]
  obtain ⟨request, asked, held⟩ := inv.working generation (by simp [at_, Phase.working])
  rw [at_] at held
  refine ⟨inv.count, order ▸ inv.ascending, order ▸ inv.bounded, fun item mem => ?_,
    fun own mem => (by cases mem), inv.pending, inv.latest, fun last newest => ?_,
    fun asleep => (by cases asleep), inv.stopped⟩
  · rcases List.mem_append.mp mem with mem | mem
    · exact inv.delivered item mem
    · rw [List.mem_singleton.mp mem]
      exact ⟨request, asked, held.2⟩
  · refine (inv.newest last newest).imp_right (.imp_right fun here => .inr ?_)
    rcases here with carries | done
    · rw [at_] at carries
      obtain ⟨own, equal⟩ := carries
      exact List.mem_append_right _ (by rw [own, equal]; exact List.mem_singleton_self _)
    · exact List.mem_append_left _ done

theorem inv_step {after : Worker} (inv : worker.Inv engine rowsAt)
    (step : Step engine rowsAt worker after) : after.Inv engine rowsAt := by
  cases step with
  | submits request free running => exact inv_submits inv request free running
  | submitted own => exact inv_submitted inv own
  | stops free running => exact inv_stops inv free
  | sleeps ready free none running =>
    refine inv_phase inv (List.nil_sublist _) (fun _ _ _ mem => by cases mem) ?_
      fun _ => ⟨none, running⟩
    rw [ready]
    exact fun _ carries => carries
  | wakes asleep =>
    refine inv_phase inv (List.nil_sublist _) (fun _ _ _ mem => by cases mem) ?_
      fun asleep => by cases asleep
    rw [asleep]
    exact fun _ carries => carries
  | ends ready free stopped =>
    refine inv_phase inv (List.nil_sublist _) (fun _ _ _ mem => by cases mem) ?_
      fun asleep => by cases asleep
    rw [ready]
    exact fun _ carries => carries
  | takes ready free pending running => exact inv_takes inv ready free pending running
  | finds at_ newest =>
    refine inv_phase inv (by rw [at_]; exact .refl _) (fun own asked held _ => ?_)
      (fun asked held => ?_) fun asleep => by cases asleep
    · rw [at_] at held
      exact ⟨held.1, held.2.1, by rw [← held.2.2, List.flatten_cons, List.append_assoc]⟩
    · rw [at_] at held
      exact ⟨held.1, held.2.1, by rw [← held.2.2, List.flatten_cons, List.append_assoc]⟩
  | cancels at_ newer =>
    refine inv_phase inv (List.nil_sublist _) (fun _ _ _ mem => by cases mem)
      (fun asked held => ?_) fun asleep => by cases asleep
    rw [at_] at held
    exact absurd held.1.symm newer
  | completes at_ => exact inv_completes inv at_
  | delivers at_ => exact inv_delivers inv at_

theorem reachable_inv (reached : Reachable engine rowsAt worker) : worker.Inv engine rowsAt := by
  induction reached with
  | refl => exact inv_start
  | tail _ step inv => exact inv_step inv step

/-- A submission that a newer one took the place of, before its last check, is not delivered. -/
structure Superseded (worker : Worker) (generation : Nat) : Prop where
  old : generation < worker.generation
  unchecked : ¬ worker.phase.Checked generation
  undelivered : ∀ item ∈ worker.delivered, item.1 ≠ generation

theorem checked_notifyOne {generation : Nat} :
    worker.notifyOne.phase.Checked generation ↔ worker.phase.Checked generation := by
  cases phase : worker.phase <;> simp [notifyOne, phase, Phase.Checked]

theorem superseded_step {after : Worker} {generation : Nat}
    (superseded : worker.Superseded generation) (step : Step engine rowsAt worker after) :
    after.Superseded generation := by
  obtain ⟨old, unchecked, undelivered⟩ := superseded
  cases step with
  | submits request free running => exact ⟨Nat.lt_succ_of_lt old, unchecked, undelivered⟩
  | submitted own => exact ⟨old, checked_notifyOne.not.mpr unchecked, undelivered⟩
  | stops free running =>
    exact ⟨Nat.lt_succ_of_lt old, checked_notifyOne.not.mpr unchecked, undelivered⟩
  | sleeps ready free none running => exact ⟨old, not_false, undelivered⟩
  | wakes asleep => exact ⟨old, not_false, undelivered⟩
  | ends ready free stopped => exact ⟨old, not_false, undelivered⟩
  | takes ready free pending running => exact ⟨old, not_false, undelivered⟩
  | @finds own request found piece left at_ newest =>
    refine ⟨old, fun checked => ?_, undelivered⟩
    cases left with
    | nil => exact absurd (newest.trans checked) (Nat.ne_of_gt old)
    | cons next left => exact checked
  | cancels at_ newer => exact ⟨old, not_false, undelivered⟩
  | completes at_ =>
    rw [at_] at unchecked
    exact ⟨old, unchecked, undelivered⟩
  | delivers at_ =>
    rw [at_] at unchecked
    refine ⟨old, not_false, fun item mem => ?_⟩
    rcases List.mem_append.mp mem with mem | mem
    · exact undelivered item mem
    · rw [List.mem_singleton.mp mem]
      exact unchecked

theorem superseded_run {after : Worker} {generation : Nat}
    (superseded : worker.Superseded generation)
    (run : Relation.ReflTransGen (Step engine rowsAt) worker after) :
    after.Superseded generation := by
  induction run with
  | refl => exact superseded
  | tail _ step ih => exact superseded_step ih step

/-- What the worker delivers are the matches of the inline search. -/
theorem results_eq_search (request : Request) :
    request.results engine rowsAt = request.search engine rowsAt := by
  have texts : request.documents.map (documentAt rowsAt) =
      (request.documents.map rowsAt).map Document.fromRows := by
    rw [List.map_map]
    rfl
  rw [Request.results, Request.search, texts, engineSearch_eq]

/-- However submissions, cancellations and the checks of a search come between each other: results
come in the order of their submissions, each once and with every match of its request; a request
that a newer one takes the place of before its last check is never delivered; and a worker that
waits with no submission under way has delivered the newest request, if that was not cancelled. -/
theorem reachable_delivers (reached : Reachable engine rowsAt worker) :
    (worker.delivered.map Prod.fst).Pairwise (· < ·) ∧
      (∀ item ∈ worker.delivered, ∃ request, worker.Asked item.1 request ∧
        item.2 = request.search engine rowsAt) ∧
      (∀ generation after, worker.Superseded generation →
        Relation.ReflTransGen (Step engine rowsAt) worker after →
          ∀ item ∈ after.delivered, item.1 ≠ generation) ∧
      (worker.phase = .asleep → worker.submitting = none →
        ∀ request, worker.submitted.getLast? = some (some request) →
          (worker.generation, request.search engine rowsAt) ∈ worker.delivered) ∧
      (worker.stopped = true → worker.pending = none ∧ worker.phase ≠ .asleep) := by
  have inv := reachable_inv reached
  have ascending := inv.ascending
  refine ⟨?_, fun item mem => ?_, fun generation after superseded run =>
    (superseded_run superseded run).undelivered, fun asleep free request last => ?_,
    fun stopped => ⟨(inv.stopped stopped).1, fun asleep => ?_⟩⟩
  · rw [order, List.append_assoc, List.append_assoc] at ascending
    exact (List.pairwise_append.mp ascending).1
  · obtain ⟨request, asked, equal⟩ := inv.delivered item mem
    exact ⟨request, asked, equal.trans (results_eq_search request)⟩
  · have newest := inv.newest request last
    rw [free, asleep, (inv.asleep asleep).1, results_eq_search] at newest
    simpa [Phase.Carries] using newest
  · rw [(inv.asleep asleep).2] at stopped
    cases stopped

/-- What the checks of a search find. -/
theorem pieces_letter : pieces letterEngine ['a'] ([0].map (documentAt twoRows)) =
    [[], [], [⟨0, 0, 0⟩], [⟨0, 1, 1⟩], []] := by
  decide +kernel

/-- A search that a newer request ends, whose own results are delivered. -/
theorem reachable_delivers_newest : ∃ worker : Worker,
    Reachable letterEngine twoRows worker ∧ worker.phase = .asleep ∧
      worker.delivered.map Prod.fst = [2] ∧
      (2, Request.search letterEngine twoRows ⟨8, ['a'], [0]⟩) ∈ worker.delivered := by
  have first := Relation.ReflTransGen.refl.tail
    (@Step.submits letterEngine twoRows .start (some ⟨7, ['a'], [0]⟩) rfl rfl)
  have taken := (first.tail (.submitted rfl)).tail (.takes rfl rfl rfl rfl)
  have second := (taken.tail (.submits (some ⟨8, ['a'], [0]⟩) rfl rfl)).tail (.submitted rfl)
  have again := (second.tail (.cancels rfl (by decide))).tail (.takes rfl rfl rfl rfl)
  simp only [pieces_letter] at again
  have found := (((again.tail (.finds rfl rfl)).tail (.finds rfl rfl)).tail (.finds rfl rfl)).tail
    (.finds rfl rfl)
  have delivered := ((found.tail (.finds rfl rfl)).tail (.completes rfl)).tail (.delivers rfl)
  have asleep := delivered.tail (.sleeps rfl rfl rfl rfl)
  exact ⟨_, asleep, rfl, rfl, (reachable_delivers asleep).2.2.2.1 rfl rfl _ rfl⟩

end Worker
end ProgressiveReviewer.DiffSearch.Background
