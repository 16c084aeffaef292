import ProgressiveReviewer.Wakeups.Repeats
import Mathlib.Logic.Relation

/-! What each function of the worker does to every review it holds. -/

namespace ProgressiveReviewer.Wakeups

open Library Threads Relation

/-- The access a record is about, with its review. -/
def Record.access : Record → Option (ReviewUnit × Token)
  | .granted unit token | .requested unit token _ | .interrupted unit token
  | .dropped unit token => some (unit, token)
  | .sent notice | .outcome notice _ _ => some (notice.reviewUnit, notice.token)
  | _ => none

/-- The review a record is about. -/
def Record.unit : Record → Option ReviewUnit
  | .posted unit _ | .retried unit _ | .reopened unit _ | .granted unit _ | .requested unit _ _
  | .interrupted unit _ | .dropped unit _ => some unit
  | .sent notice | .outcome notice _ _ => some notice.reviewUnit
  | .published _ => none

theorem Record.token_eq (record : Record) : record.token = record.access.map Prod.snd := by
  cases record <;> rfl

namespace State

variable (state : State)

/-- The access a review has. -/
def token (unit : ReviewUnit) : Option Token :=
  (state.access.entries.find? fun entry => entry.2.reviewUnit = unit).map Prod.fst

def channel (unit : ReviewUnit) : Channel where
  tab := state.tab
  book := state.books.lookup unit
  retried := (state.retried.lookup unit).getD .empty
  scheduled := state.notifications.lookup unit
  token := state.token unit
  wakeup := (state.token unit).bind state.wakeups.lookup
  history := state.history

/-- How the worker's tables fit together. -/
structure Kept (state : State) : Prop where
  available : state.available = true
  sound : ∀ unit, (state.stored unit).Sound
  named : ∀ unit, (state.stored unit).reviewUnit = unit
  books : ∀ unit book, state.books.lookup unit = some book → book = state.stored unit
  keyed : ∀ token access, state.access.lookup token = some access → access.token = token
  single : ∀ token token' access access', state.access.lookup token = some access →
    state.access.lookup token' = some access' → access.reviewUnit = access'.reviewUnit →
      token = token'
  shown : ∀ token access, state.access.lookup token = some access →
    state.books.contains access.reviewUnit = true
  wakeups : ∀ token wakeup, state.wakeups.lookup token = some wakeup →
    ∃ access, state.access.lookup token = some access
  accessed : ∀ token access, state.access.lookup token = some access →
    .granted access.reviewUnit token ∈ state.history
  known : ∀ record ∈ state.history, ∀ unit token, record.access = some (unit, token) →
    .granted unit token ∈ state.history
  owner : ∀ unit unit' token, .granted unit token ∈ state.history →
    .granted unit' token ∈ state.history → unit = unit'
  sent : ∀ notice : Notice, (.sent notice ∈ state.history ∨
    ∃ failure removed, .outcome notice failure removed ∈ state.history) → notice.id < state.sends
  sending : ∀ notice ∈ state.sending, .sent notice ∈ state.history

variable {state} {strict : Prop} {unit : ReviewUnit} {token : Token}

theorem Kept.token_iff (kept : state.Kept) : state.token unit = some token ↔
    ∃ access, state.access.lookup token = some access ∧ access.reviewUnit = unit := by
  constructor
  · intro has
    obtain ⟨⟨token, access⟩, found, rfl⟩ := Option.map_eq_some_iff.mp has
    exact ⟨access, SortedMap.lookup_eq_some.mpr (List.mem_of_find?_eq_some found),
      by simpa using List.find?_some found⟩
  · rintro ⟨access, held, rfl⟩
    have some : (state.access.entries.find? fun entry =>
        entry.2.reviewUnit = access.reviewUnit).isSome :=
      List.find?_isSome.mpr ⟨_, SortedMap.lookup_eq_some.mp held, by simp⟩
    obtain ⟨⟨token', access'⟩, found⟩ := Option.isSome_iff_exists.mp some
    have held' := SortedMap.lookup_eq_some.mpr (List.mem_of_find?_eq_some found)
    have same : access'.reviewUnit = access.reviewUnit := by simpa using List.find?_some found
    rw [State.token, found, kept.single token token' access access' held held' same.symm]
    rfl

theorem Kept.granted_of_token (kept : state.Kept) (has : state.token unit = some token) :
    .granted unit token ∈ state.history := by
  obtain ⟨access, held, rfl⟩ := kept.token_iff.mp has
  exact kept.accessed token access held

/-- What a worker's function does: the tables still fit, and each review makes moves. -/
structure Goes (strict : Prop) (state state' : State) : Prop where
  kept : state'.Kept
  moves : ∀ unit, ReflTransGen (Move strict unit) (state.channel unit) (state'.channel unit)

theorem Goes.refl (kept : state.Kept) : Goes strict state state := ⟨kept, fun _ => .refl⟩

theorem Goes.trans {state' state'' : State} (first : Goes strict state state')
    (second : Goes strict state' state'') : Goes strict state state'' :=
  ⟨second.kept, fun unit => (first.moves unit).trans (second.moves unit)⟩

/-! ## Records -/

/-- A record of one review says nothing of the others. -/
theorem Kept.foreign (kept : state.Kept) {record : Record} {other : ReviewUnit}
    (about : ∀ named, record.unit = some named → named = other)
    (granted : ∀ unit token, record.access = some (unit, token) →
      .granted unit token ∈ state.history)
    (apart : other ≠ unit) : (state.channel unit).Foreign unit record := by
  have tokens : ∀ named token, record.access = some (named, token) →
      (state.channel unit).token ≠ some token ∨ named = unit := by
    intro named token same
    by_cases has : (state.channel unit).token = some token
    · exact .inr (kept.owner _ _ _ (granted named token same) (kept.granted_of_token has))
    · exact .inl has
  have differs : ∀ named, record.unit = some named → named ≠ unit :=
    fun named same => about named same ▸ apart
  cases record with
  | posted | retried | reopened => exact differs _ rfl
  | published event => trivial
  | granted _ _ | requested _ _ _ | interrupted _ _ | dropped _ _ | sent _ =>
    exact ⟨differs _ rfl, (tokens _ _ rfl).resolve_right (differs _ rfl)⟩
  | outcome notice failure removed =>
    exact .inr ⟨fun _ => differs _ rfl, (tokens _ _ rfl).resolve_right (differs _ rfl)⟩

/-- What a function for one review leaves of the others. -/
structure Aside (unit : ReviewUnit) (state state' : State) : Prop where
  tab : state'.tab = state.tab
  books : ∀ other, other ≠ unit → state'.books.lookup other = state.books.lookup other
  retried : ∀ other, other ≠ unit → state'.retried.lookup other = state.retried.lookup other
  notifications : ∀ other, other ≠ unit →
    state'.notifications.lookup other = state.notifications.lookup other
  token : ∀ other, other ≠ unit → state'.token other = state.token other
  wakeups : ∀ other, other ≠ unit → ∀ token, state.token other = some token →
    state'.wakeups.lookup token = state.wakeups.lookup token

theorem moves_of_foreign {c : Channel} (records : List Record)
    (foreign : ∀ record ∈ records, c.Foreign unit record) :
    ReflTransGen (Move strict unit) c { c with history := records ++ c.history } := by
  induction records with
  | nil => exact .refl
  | cons record records ih =>
    have before := ih fun other mem => foreign other (List.mem_cons_of_mem _ mem)
    exact before.tail (.tell record (foreign record List.mem_cons_self))

theorem Goes.of {state' : State} (unit : ReviewUnit) (records : List Record) (kept : state'.Kept)
    (aside : Aside unit state state') (history : state'.history = records ++ state.history)
    (about : ∀ record ∈ records, ∀ named, record.unit = some named → named = unit)
    (moves : ReflTransGen (Move strict unit) (state.channel unit) (state'.channel unit)) :
    Goes strict state state' := by
  refine ⟨kept, fun other => ?_⟩
  by_cases same : other = unit
  · exact same ▸ moves
  have channel : state'.channel other = { state.channel other with
      history := records ++ state.history } := by
    unfold State.channel
    rw [aside.tab, aside.books other same, aside.retried other same,
      aside.notifications other same, aside.token other same, history]
    congr 1
    cases has : state.token other with
    | none => rfl
    | some token => exact aside.wakeups other same token has
  rw [channel]
  refine moves_of_foreign records fun record mem => ?_
  have foreign : (state'.channel other).Foreign other record :=
    kept.foreign (about record mem)
      (kept.known record (history ▸ List.mem_append_left _ mem)) (Ne.symm same)
  rw [channel] at foreign
  exact foreign

/-! ## Tables -/

/-- A record that grants nothing. -/
theorem Kept.recorded (kept : state.Kept) {record : Record}
    (granted : ∀ unit token, record.access = some (unit, token) →
      .granted unit token ∈ state.history)
    (grants : ∀ unit token, record ≠ .granted unit token)
    (ids : ∀ notice : Notice, (record = .sent notice ∨
      ∃ failure removed, record = .outcome notice failure removed) → notice.id < state.sends) :
    (state.record record).Kept := by
  have old : ∀ {unit token}, .granted unit token ∈ record :: state.history →
      .granted unit token ∈ state.history := fun mem =>
    (List.mem_cons.mp mem).resolve_left fun same => grants _ _ same.symm
  refine { kept with
    accessed := fun token access held => List.mem_cons_of_mem _ (kept.accessed token access held)
    known := fun other mem unit token same => List.mem_cons_of_mem _ ?_
    owner := fun unit unit' token first second => kept.owner unit unit' token (old first) (old second)
    sent := fun notice mem => ?_
    sending := fun notice mem => List.mem_cons_of_mem _ (kept.sending notice mem) }
  · rcases List.mem_cons.mp mem with rfl | mem
    · exact granted unit token same
    · exact kept.known other mem unit token same
  · rcases mem with mem | ⟨failure, removed, mem⟩
    · rcases List.mem_cons.mp mem with rfl | mem
      · exact ids notice (.inl rfl)
      · exact kept.sent notice (.inl mem)
    · rcases List.mem_cons.mp mem with rfl | mem
      · exact ids notice (.inr ⟨failure, removed, rfl⟩)
      · exact kept.sent notice (.inr ⟨failure, removed, mem⟩)

theorem Kept.published (kept : state.Kept) (event : Event) : (state.publish event).Kept :=
  kept.recorded nofun nofun nofun

theorem goes_publish (kept : state.Kept) (event : Event) :
    Goes strict state (state.publish event) :=
  ⟨kept.published event, fun _ => .single (.tell (.published event) trivial)⟩

theorem goes_report {result : Except String Unit × State} (goes : Goes strict state result.2) :
    Goes strict state (report result) := by
  obtain ⟨_ | _, state'⟩ := result
  · exact goes.trans (goes_publish goes.kept _)
  · exact goes

/-! ## Schedules -/

/-- Scheduling works in a loaded review of an available worker. -/
theorem schedule_eq {retry : Bool} (kept : state.Kept) (loaded : state.books.contains unit = true) :
    state.schedule unit retry = (.ok (), if state.waitsForAgent unit then { state with
      notifications := state.notifications.insert unit
        ⟨((state.notifications.lookup unit).getD {}).retry || retry⟩ } else state) := by
  rw [schedule, loaded, kept.available]
  cases state.waitsForAgent unit <;> rfl

theorem channel_schedule {retry : Bool} (kept : state.Kept)
    (loaded : state.books.contains unit = true) :
    (state.schedule unit retry).2.channel unit = (state.channel unit).reschedule retry := by
  rw [schedule_eq kept loaded, Channel.reschedule]
  have same : (state.channel unit).waits = state.waitsForAgent unit := rfl
  rw [same]
  split_ifs
  · simp only [channel, SortedMap.lookup_insert_self]
    rfl
  · rfl

theorem aside_schedule {retry : Bool} (kept : state.Kept)
    (loaded : state.books.contains unit = true) : Aside unit state (state.schedule unit retry).2 := by
  rw [schedule_eq kept loaded]
  split_ifs
  · exact ⟨rfl, fun _ _ => rfl, fun _ _ => rfl,
      fun other apart => SortedMap.lookup_insert.trans (if_neg (Ne.symm apart)), fun _ _ => rfl,
      fun _ _ _ _ => rfl⟩
  · exact ⟨rfl, fun _ _ => rfl, fun _ _ => rfl, fun _ _ => rfl, fun _ _ => rfl,
      fun _ _ _ _ => rfl⟩

theorem Kept.schedule {retry : Bool} (kept : state.Kept) : (state.schedule unit retry).2.Kept := by
  unfold State.schedule
  split_ifs <;> exact { kept with }

theorem history_schedule {retry : Bool} : (state.schedule unit retry).2.history = state.history := by
  unfold State.schedule
  split_ifs <;> rfl

theorem contains_of_waits (waits : state.waitsForAgent unit = true) :
    state.books.contains unit = true := by
  cases held : state.books.lookup unit with
  | none =>
    rw [waitsForAgent, held] at waits
    cases waits
  | some book => exact SortedMap.contains_iff.mpr ⟨book, held⟩

theorem receives_refl {book : ReviewThreads} (sound : book.Sound) : Receives book book none :=
  ⟨.refl sound, ReviewThreads.keepsShut_refl sound,
    fun message mem late => absurd (sound.bounded message mem).2 late.not_ge, nofun⟩

/-- A notification is scheduled again for what still waits. -/
theorem goes_schedule (kept : state.Kept) (loaded : state.books.contains unit = true) :
    Goes strict state (state.schedule unit false).2 := by
  refine .of unit [] kept.schedule (aside_schedule kept loaded) history_schedule nofun ?_
  rw [channel_schedule kept loaded]
  obtain ⟨book, held⟩ := SortedMap.contains_iff.mp loaded
  have sound : book.Sound := kept.books unit book held ▸ kept.sound unit
  have move : Move strict unit (state.channel unit) _ :=
    .revise book book none (.inl held) (receives_refl sound)
  have same : ({ state.channel unit with book := some book } : Channel) = state.channel unit := by
    rw [← held]
    rfl
  exact .single (same ▸ move)

theorem resume_eq (kept : state.Kept) : state.resume unit =
    if state.waitsForAgent unit then (state.schedule unit false).2 else state := by
  unfold resume
  split_ifs with waits
  · rw [schedule_eq kept (contains_of_waits waits)]
    rfl
  · rfl

theorem goes_resume (kept : state.Kept) : Goes strict state (state.resume unit) := by
  rw [resume_eq kept]
  split_ifs with waits
  · exact goes_schedule kept (contains_of_waits waits)
  · exact .refl kept

theorem goes_refreshTarget (kept : state.Kept) : Goes strict state state.refreshTarget := by
  unfold refreshTarget
  generalize state.books.keys = units
  induction units generalizing state with
  | nil => exact .refl kept
  | cons unit units ih =>
    have first : Goes strict state (state.resume unit) := goes_resume kept
    exact first.trans (ih first.kept)

/-! ## Documents -/

/-- What loading or changing a document leaves. -/
def saved (state : State) (unit : ReviewUnit) (book : ReviewThreads) : State :=
  { state with
    stored := Function.update state.stored unit book
    books := state.books.insert unit book }

theorem stored_saved {book : ReviewThreads} {other : ReviewUnit} :
    (state.saved unit book).stored other = if other = unit then book else state.stored other :=
  Function.update_apply _ _ _ _

theorem Kept.saved {book : ReviewThreads} (kept : state.Kept) (sound : book.Sound)
    (named : book.reviewUnit = unit) : (state.saved unit book).Kept := by
  have books : ∀ other held, (state.saved unit book).books.lookup other = some held →
      held = (state.saved unit book).stored other := by
    intro other held found
    rw [stored_saved]
    rw [State.saved, SortedMap.lookup_insert] at found
    split_ifs at found ⊢ with same equal equal
    · exact (Option.some.inj found).symm
    · exact absurd same.symm equal
    · exact absurd equal.symm same
    · exact kept.books other held found
  refine { kept with
    sound := fun other => ?_
    named := fun other => ?_
    books := books
    shown := fun token access held => SortedMap.contains_insert.mpr (.inr (kept.shown token access held)) }
  · rw [stored_saved]
    split_ifs
    · exact sound
    · exact kept.sound other
  · rw [stored_saved]
    split_ifs with same
    · exact named.trans same.symm
    · exact kept.named other

theorem channel_saved {book : ReviewThreads} :
    (state.saved unit book).channel unit = { state.channel unit with book := some book } := by
  simp only [channel, saved, SortedMap.lookup_insert_self]
  rfl

theorem aside_saved {book : ReviewThreads} : Aside unit state (state.saved unit book) :=
  ⟨rfl, fun _ apart => SortedMap.lookup_insert.trans (if_neg (Ne.symm apart)), fun _ _ => rfl,
    fun _ _ => rfl, fun _ _ => rfl, fun _ _ _ _ => rfl⟩

theorem load_eq : state.load unit = state.saved unit (state.stored unit) := by
  rw [load, saved, Function.update_eq_self]

/-- Loading a document again changes nothing. -/
theorem load_loaded (kept : state.Kept) (loaded : state.books.contains unit = true) :
    state.load unit = state := by
  obtain ⟨book, held⟩ := SortedMap.contains_iff.mp loaded
  rw [load, ← kept.books unit book held, SortedMap.insert_lookup held]

theorem update_cases {α : Type} (kept : state.Kept) (unit : ReviewUnit) (saved : Except String Unit)
    (change : ReviewThreads → EStateM.Result String ReviewThreads α)
    (named : ∀ a book, change (state.stored unit) = .ok a book →
      book.reviewUnit = (state.stored unit).reviewUnit) :
    (∃ e, state.update unit saved change = (.error e, state)) ∨
    ∃ a book, change (state.stored unit) = .ok a book ∧
      state.update unit saved change = (.ok a, state.saved unit book) := by
  unfold update
  split
  · exact .inl ⟨_, rfl⟩
  · exact .inl ⟨_, rfl⟩
  · next a book changed =>
    refine .inr ⟨a, book, changed, ?_⟩
    rw [(named a book changed).trans (kept.named unit)]
    rfl

end State

end ProgressiveReviewer.Wakeups
