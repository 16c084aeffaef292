import Mathlib.Data.List.Basic
import ProgressiveReviewer.Library.Runs

/-! The history of a review's rounds: which round reopening restores, and whose decisions
still stand (`review-explore/src/durable.rs`, `review-explore-session/src/records.rs`). -/

namespace ProgressiveReviewer.Explore

open Library

structure ExploreHistory where
  rounds : List String
  latestEditable : Bool
  /-- The reviewer reset Explore after the latest round. -/
  closed : Bool
  /-- How many of the first rounds the reviewer reset before starting a later round. -/
  resetRounds : Nat
  deriving DecidableEq, Repr

/-- The rounds of a review started before one of them. -/
structure RoundsBefore where
  reset : Nat
  /-- The rounds after those, oldest first, whose decisions still stand. -/
  standing : List String
  deriving DecidableEq, Repr

namespace ExploreHistory

def default : ExploreHistory := ⟨[], true, false, 0⟩

variable (history : ExploreHistory)

def latest : Option String := history.rounds.getLast?

/-- The round reopening restores; none after a reset. -/
def restorable : Option String := if history.closed then none else history.latest

def before (instanceId : String) : RoundsBefore :=
  let earlier := history.rounds.idxOf instanceId
  let reset := min history.resetRounds earlier
  ⟨reset, (history.rounds.take earlier).drop reset⟩

def isHistorical (instanceId : String) : Bool :=
  history.closed || !history.latestEditable || history.latest ≠ some instanceId

def create (instanceId : String) : ExploreHistory where
  rounds := history.rounds ++ [instanceId]
  latestEditable := true
  closed := false
  -- After a reset the new round starts over.
  resetRounds := if history.closed then history.rounds.length else history.resetRounds

/-- A later round, another reviewer's, stays open. -/
def close (instanceId : String) : ExploreHistory :=
  if history.latest ≠ some instanceId ∨ history.closed = true then history
  else { history with closed := true }

def clearRound (instanceId : String) : ExploreHistory :=
  { history with
    latestEditable := if history.latest = some instanceId then false else history.latestEditable
    rounds := history.rounds.filter (· ≠ instanceId) }

end ExploreHistory

inductive HistoryAction where
  | create (instanceId : String)
  | close (instanceId : String)
  | clearRound (instanceId : String)
  deriving DecidableEq, Repr

/-- A history with every round ever created in it. -/
structure HistoryLog where
  history : ExploreHistory
  created : List String
  /-- The latest round was reset, and none was created since. -/
  wasReset : Bool
  /-- How many rounds were created before the last reset that a later round followed. -/
  past : Nat

namespace HistoryLog

def new : HistoryLog := ⟨.default, [], false, 0⟩

variable (log : HistoryLog)

def step : HistoryAction → HistoryLog
  | .create instanceId =>
    { history := log.history.create instanceId
      created := log.created ++ [instanceId]
      wasReset := false
      past := if log.wasReset then log.created.length else log.past }
  | .close instanceId =>
    { log with
      history := log.history.close instanceId
      wasReset := log.wasReset || log.history.latest = some instanceId }
  | .clearRound instanceId => { log with history := log.history.clearRound instanceId }

/-- The remaining rounds that were reset before a later round. -/
def reset : List String := (log.created.take log.past).filter (· ∈ log.history.rounds)

/-- The remaining rounds created since. -/
def standing : List String := (log.created.drop log.past).filter (· ∈ log.history.rounds)

/-- A new round has an identity of its own. No reset round is cleared, and while one is
left, neither is the only round that stands. -/
def May : HistoryAction → Prop
  | .create instanceId => instanceId ∉ log.created
  | .close _ => True
  | .clearRound instanceId =>
    instanceId ∉ log.reset ∧ (log.standing = [instanceId] → log.reset = [])

instance : ∀ action, Decidable (log.May action)
  | .create _ => inferInstanceAs (Decidable (_ ∉ _))
  | .close _ => .isTrue trivial
  | .clearRound _ => inferInstanceAs (Decidable (_ ∧ (_ → _)))

/-- What the operations keep in step: the reset rounds are a prefix of the history, as long
as its count says. -/
structure Kept (gone stands : List String) : Prop where
  nodup : log.created.Nodup
  past : log.past ≤ log.created.length
  rounds : log.history.rounds = gone ++ stands
  reset : gone.Sublist (log.created.take log.past)
  standing : stands.Sublist (log.created.drop log.past)
  count : log.history.resetRounds = gone.length
  last : stands = [] → gone = []
  closed : log.history.closed = log.wasReset
  editable : log.history.latestEditable = true → log.history.latest = log.created.getLast?

variable {log}

/-- A sublist is what its elements select. -/
theorem filter_mem_of_sublist {l s : List String} (nodup : l.Nodup) (sub : s.Sublist l) :
    l.filter (· ∈ s) = s := by
  induction sub with
  | slnil => rfl
  | @cons s l a sub ih =>
    obtain ⟨new, nodup⟩ := List.nodup_cons.mp nodup
    have absent : a ∉ s := fun mem => new (sub.subset mem)
    simpa [absent] using ih nodup
  | @cons_cons s l a sub ih =>
    obtain ⟨new, nodup⟩ := List.nodup_cons.mp nodup
    have same : l.filter (· ∈ a :: s) = l.filter (· ∈ s) := List.filter_congr fun b mem => by
      have differs : b ≠ a := fun same => new (same ▸ mem)
      simp [differs]
    rw [List.filter_cons_of_pos (by simp), same, ih nodup]

namespace Kept

variable {gone stands : List String}

theorem apart (kept : log.Kept gone stands) {id : String} (mem : id ∈ log.created.take log.past) :
    id ∉ stands := fun held => by
  have nodup := kept.nodup
  rw [← List.take_append_drop log.past log.created, List.nodup_append] at nodup
  exact nodup.2.2 id mem id (kept.standing.subset held) rfl

theorem reset_eq (kept : log.Kept gone stands) : log.reset = gone := by
  have same : (log.created.take log.past).filter (· ∈ log.history.rounds) =
      (log.created.take log.past).filter (· ∈ gone) := List.filter_congr fun id mem => by
    simp [kept.rounds, kept.apart mem]
  exact same.trans (filter_mem_of_sublist (kept.nodup.sublist (List.take_sublist ..)) kept.reset)

theorem standing_eq (kept : log.Kept gone stands) : log.standing = stands := by
  have same : (log.created.drop log.past).filter (· ∈ log.history.rounds) =
      (log.created.drop log.past).filter (· ∈ stands) := List.filter_congr fun id mem => by
    have apart : id ∉ gone := fun held => by
      have nodup := kept.nodup
      rw [← List.take_append_drop log.past log.created, List.nodup_append] at nodup
      exact nodup.2.2 id (kept.reset.subset held) id mem rfl
    simp [kept.rounds, apart]
  exact same.trans (filter_mem_of_sublist (kept.nodup.sublist (List.drop_sublist ..)) kept.standing)

theorem rounds_sublist (kept : log.Kept gone stands) :
    log.history.rounds.Sublist log.created := by
  rw [kept.rounds, ← List.take_append_drop log.past log.created]
  exact kept.reset.append kept.standing

theorem create (kept : log.Kept gone stands) {id : String} (new : id ∉ log.created) :
    ∃ gone stands, (log.step (.create id)).Kept gone stands := by
  have nodup : (log.created ++ [id]).Nodup := by
    simpa [List.nodup_append, kept.nodup] using fun other mem (same : other = id) => new (same ▸ mem)
  have editable : (log.history.rounds ++ [id]).getLast? = (log.created ++ [id]).getLast? := by simp
  by_cases was : log.wasReset = true
  · -- Every round left was reset.
    refine ⟨log.history.rounds, [id], ?_⟩
    exact {
      nodup := nodup
      past := by simp [step, was]
      rounds := rfl
      reset := by simpa [step, was] using kept.rounds_sublist
      standing := by simp [step, was]
      count := by simp [step, ExploreHistory.create, kept.closed, was]
      last := fun absent => nomatch absent
      closed := rfl
      editable := fun _ => editable }
  · refine ⟨gone, stands ++ [id], ?_⟩
    exact {
      nodup := nodup
      past := by simpa [step, was] using Nat.le_succ_of_le kept.past
      rounds := by simp [step, ExploreHistory.create, kept.rounds]
      reset := by simpa [step, was, List.take_append_of_le_length kept.past] using kept.reset
      standing := by
        simpa [step, was, List.drop_append_of_le_length kept.past] using kept.standing
      count := by simp [step, ExploreHistory.create, kept.closed, was, kept.count]
      last := fun absent => by simp at absent
      closed := rfl
      editable := fun _ => editable }

theorem close (kept : log.Kept gone stands) {id : String} :
    (log.step (.close id)).Kept gone stands := by
  have history : (log.history.close id).rounds = log.history.rounds ∧
      (log.history.close id).resetRounds = log.history.resetRounds ∧
      (log.history.close id).latestEditable = log.history.latestEditable := by
    unfold ExploreHistory.close
    split_ifs <;> exact ⟨rfl, rfl, rfl⟩
  obtain ⟨rounds, count, editable⟩ := history
  have closed : (log.history.close id).closed =
      (log.wasReset || log.history.latest = some id) := by
    rw [← kept.closed]
    unfold ExploreHistory.close
    by_cases latest : log.history.latest = some id <;>
      by_cases closed : log.history.closed = true <;> simp [latest, closed]
  exact { kept with
    rounds := rounds.trans kept.rounds
    count := count.trans kept.count
    closed := closed
    editable := fun may => by
      have latest : (log.history.close id).latest = log.history.latest := congrArg List.getLast? rounds
      exact latest.trans (kept.editable (editable ▸ may)) }

theorem clearRound (kept : log.Kept gone stands) {id : String}
    (may : log.May (.clearRound id)) :
    (log.step (.clearRound id)).Kept gone (stands.filter (· ≠ id)) := by
  rw [May, kept.reset_eq, kept.standing_eq] at may
  obtain ⟨stays, last⟩ := may
  have untouched : gone.filter (· ≠ id) = gone :=
    List.filter_eq_self.mpr fun other mem => decide_eq_true fun same => stays (same ▸ mem)
  exact { kept with
    rounds := by
      simp only [step, ExploreHistory.clearRound, kept.rounds, List.filter_append, untouched]
    standing := List.filter_sublist.trans kept.standing
    last := fun none => by
      by_cases empty : stands = []
      · exact kept.last empty
      · refine last ?_
        have all : ∀ other ∈ stands, other = id := by simpa using none
        have nodup := (kept.nodup.sublist (List.drop_sublist ..)).sublist kept.standing
        obtain ⟨first, rest, rfl⟩ := List.exists_cons_of_ne_nil empty
        obtain rfl := all first List.mem_cons_self
        have rest_nil : rest = [] := List.eq_nil_iff_forall_not_mem.mpr fun other mem =>
          (List.nodup_cons.mp nodup).1 (all other (List.mem_cons_of_mem _ mem) ▸ mem)
        rw [rest_nil]
    editable := fun may => by
      by_cases latest : log.history.latest = some id
      · simp [step, ExploreHistory.clearRound, latest] at may
      · have held : log.history.latestEditable = true := by
          simpa [step, ExploreHistory.clearRound, latest] using may
        refine Eq.trans ?_ (kept.editable held)
        simp only [step, ExploreHistory.clearRound, ExploreHistory.latest] at latest ⊢
        rcases log.history.rounds.eq_nil_or_concat with nil | ⟨init, newest, concat⟩
        · rw [nil]; rfl
        · rw [concat, List.concat_eq_append] at latest ⊢
          have differs : newest ≠ id := by simpa using latest
          simp [differs] }

theorem step (kept : log.Kept gone stands) {action : HistoryAction} (may : log.May action) :
    ∃ gone stands, (log.step action).Kept gone stands := by
  cases action with
  | create id => exact kept.create may
  | close id => exact ⟨_, _, kept.close⟩
  | clearRound id => exact ⟨_, _, kept.clearRound may⟩

/-- The rounds before the latest. -/
theorem before_latest (kept : log.Kept gone stands) {latest : String}
    (last : log.history.latest = some latest) :
    ∃ init, stands = init ++ [latest] ∧ log.history.before latest = ⟨gone.length, init⟩ := by
  have nodup := kept.nodup.sublist kept.rounds_sublist
  rw [kept.rounds] at nodup
  rw [ExploreHistory.latest, kept.rounds] at last
  rcases stands.eq_nil_or_concat with nil | ⟨init, newest, concat⟩
  · rw [nil, kept.last nil] at last
    cases last
  · rw [List.concat_eq_append] at concat
    subst concat
    obtain rfl : newest = latest := by simpa [← List.append_assoc] using last
    have new : newest ∉ gone ++ init := fun mem => by
      rw [← List.append_assoc, List.nodup_append] at nodup
      exact nodup.2.2 newest mem newest (List.mem_singleton.mpr rfl) rfl
    have position : log.history.rounds.idxOf newest = gone.length + init.length := by
      rw [kept.rounds, ← List.append_assoc, List.idxOf_append_of_notMem new]
      simp
    refine ⟨init, rfl, ?_⟩
    have first : min log.history.resetRounds (gone.length + init.length) = gone.length := by
      rw [kept.count]; omega
    have taken : log.history.rounds.take (gone.length + init.length) = gone ++ init := by
      rw [kept.rounds, ← List.append_assoc, List.take_left' (by simp)]
    simp only [ExploreHistory.before, position, first, taken, List.drop_left]

theorem before_standing (kept : log.Kept gone stands) (later : String) :
    (log.history.before later).standing ⊆ stands := by
  intro id mem
  simp only [ExploreHistory.before, kept.rounds, kept.count] at mem
  rcases Nat.le_total ((gone ++ stands).idxOf later) gone.length with short | long
  · rw [Nat.min_eq_right short, List.drop_eq_nil_of_le (List.length_take_le ..)] at mem
    cases mem
  · rw [Nat.min_eq_left long, List.drop_take, List.drop_left] at mem
    exact List.take_subset _ _ mem

end Kept

theorem kept_of_reaches (run : Reaches step May new log) :
    ∃ gone stands, log.Kept gone stands := by
  induction run with
  | start =>
    exact ⟨[], [], {
      nodup := List.nodup_nil
      past := Nat.le_refl 0
      rounds := rfl
      reset := .slnil
      standing := .slnil
      count := rfl
      last := fun _ => rfl
      closed := rfl
      editable := fun _ => rfl }⟩
  | step action _ may ih =>
    obtain ⟨_, _, kept⟩ := ih
    exact kept.step may

/-- Only the newest round of an open history can be edited, and what a round is told of the
earlier ones is what the reviewer did not reset. -/
theorem standing_kept (run : Reaches step May new log) :
    (∀ id, log.history.isHistorical id = false →
      log.wasReset = false ∧ log.created.getLast? = some id) ∧
    (∀ latest, log.history.latest = some latest →
      (log.history.before latest).standing = log.standing.filter (· ≠ latest) ∧
        (log.history.before latest).reset = log.reset.length) ∧
    ∀ id ∈ log.created.take log.past, log.history.restorable ≠ some id ∧
      ∀ later, id ∉ (log.history.before later).standing := by
  obtain ⟨gone, stands, kept⟩ := kept_of_reaches run
  refine ⟨fun id edits => ?_, fun latest last => ?_, fun id was => ⟨fun restored => ?_, ?_⟩⟩
  · obtain ⟨⟨opened, editable⟩, newest⟩ : (log.history.closed = false ∧
        log.history.latestEditable = true) ∧ log.history.latest = some id := by
      simpa [ExploreHistory.isHistorical] using edits
    exact ⟨kept.closed ▸ opened, kept.editable editable ▸ newest⟩
  · obtain ⟨init, rfl, told⟩ := kept.before_latest last
    rw [told, kept.reset_eq, kept.standing_eq]
    refine ⟨?_, rfl⟩
    have nodup := (kept.nodup.sublist (List.drop_sublist ..)).sublist kept.standing
    have apart : ∀ other ∈ init, other ≠ latest := fun other mem same => by
      rw [List.nodup_append] at nodup
      exact nodup.2.2 other mem latest (List.mem_singleton.mpr rfl) same
    rw [List.filter_append, List.filter_eq_self.mpr fun other mem => decide_eq_true (apart other mem)]
    simp
  · unfold ExploreHistory.restorable at restored
    split_ifs at restored
    obtain ⟨init, rfl, _⟩ := kept.before_latest restored
    exact kept.apart was (List.mem_append_right _ (List.mem_singleton.mpr rfl))
  · exact fun later mem => kept.apart was (kept.before_standing later mem)

/-- A round is reset, two are started after it, and the last of them is cleared. -/
def startedOver : HistoryLog :=
  [.create "a", .close "a", .create "b", .create "c", .clearRound "c", .create "d"].foldl step new

theorem startedOver_standing : (startedOver.history.before "d").standing = ["b"] ∧
    startedOver.history.restorable ≠ some "a" := by
  have run : Reaches step May new startedOver := Reaches.start.foldl (by decide)
  obtain ⟨_, told, gone⟩ := standing_kept run
  exact ⟨(told "d" (by decide)).1.trans (by decide),
    (gone "a" (by decide)).1⟩

/-- The reset round is cleared before the next one is started. -/
def clearedReset : HistoryLog :=
  [.create "a", .close "a", .create "b", .clearRound "a", .create "c"].foldl step new

/-- The only round that stands is cleared. -/
def clearedStanding : HistoryLog :=
  [.create "a", .close "a", .create "b", .clearRound "b"].foldl step new

theorem cleared_rounds_miscounted :
    (clearedReset.history.latest = some "c" ∧
      clearedReset.standing.filter (· ≠ "c") = ["b"] ∧ clearedReset.reset = [] ∧
      clearedReset.history.before "c" = ⟨1, []⟩) ∧
      "a" ∈ clearedStanding.created.take clearedStanding.past ∧
        clearedStanding.history.restorable = some "a" := by
  decide

end HistoryLog

end ProgressiveReviewer.Explore
