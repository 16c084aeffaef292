import ProgressiveReviewer.Wakeups.Covered

/-! A failure takes away only the wakeup it is about, and a comment is told once with an access
unless it is asked again. -/

namespace ProgressiveReviewer.Wakeups

open Library Threads

/-- A failure that took a wakeup away found it as its notification left it. -/
def RemovesOwn (unit : ReviewUnit) (record : Record) (earlier : List Record) : Prop :=
  ∀ notice e, record = .outcome notice (some e) true → notice.reviewUnit = unit →
    ¬ Since (· = .sent notice) (Record.Touches notice.token) earlier

/-- A notification tells a later comment than those before it, unless something came between. -/
def TellsOnce (unit : ReviewUnit) (record : Record) (earlier : List Record) : Prop :=
  ∀ notice, record = .sent notice → notice.reviewUnit = unit →
    ¬ Since (Record.Excuses unit notice.token) (Record.SentThrough notice.token notice.through)
      earlier

namespace Channel

variable {unit : ReviewUnit} {c c' : Channel} {token : Token} {through : Nat}

/-- No thread that waits has a comment as its last one. -/
def Dead (c : Channel) (through : Nat) : Prop :=
  ∀ book, c.book = some book → ∀ thread ∈ book.threads,
    book.pendingFor c.recipient thread = true →
      ∀ last, thread.lastComment = some last → last.sequence ≠ through

/-- Why a comment that was told is not told again: the watermark is past it, nothing waits for
it, or its wakeup is lost and only a later one is asked for. -/
def Past (c : Channel) (token : Token) (through : Nat) : Prop :=
  (∃ wakeup, c.wakeup = some wakeup ∧ through ≤ wakeup.notifiedThrough) ∨
  (c.Dead through ∧ ∀ wakeup, c.wakeup = some wakeup → wakeup.requestedThrough ≠ through) ∨
  (Lost token c.history ∧ ∀ wakeup, c.wakeup = some wakeup → through < wakeup.requestedThrough)

structure Once (unit : ReviewUnit) (c : Channel) : Prop where
  inv : c.Inv unit
  shown : c.book = none → c.token = none
  granted : c.token = none → c.wakeup = none
  bounds : ∀ book token notice, c.book = some book → c.token = some token →
    .sent notice ∈ c.history → notice.token = token →
      0 < notice.through ∧ notice.through ≤ book.sequence
  unchanged : ∀ notice, c.token = some notice.token → .sent notice ∈ c.history →
    c.wakeup = some ⟨notice.through, notice.through⟩ →
      Since (· = .sent notice) (Record.Touches notice.token) c.history →
        Since (· = .sent notice) (Record.Repeats notice) c.history
  removes : AtEach (RemovesOwn unit) c.history
  past : ∀ token through, c.token = some token →
    Since (Record.Excuses unit token) (Record.SentThrough token through) c.history →
      c.scheduled ≠ some ⟨true⟩ ∧ c.Past token through
  tells : AtEach (TellsOnce unit) c.history

theorem dead_of_not_waits (nothing : c.waits = false) (through : Nat) : c.Dead through := by
  intro book held thread mem waits
  have waiting : c.waits = true := by
    rw [Channel.waits, held]
    exact ReviewThreads.hasNewMessagesFor_iff.mpr ⟨thread, mem, waits⟩
  exact absurd (nothing.symm.trans waiting) Bool.false_ne_true

/-- What is asked for is the last comment of a thread that waits, and no later one waits. -/
theorem Dead.ne_pending {sequence : Nat} (dead : c.Dead through)
    (told : c.pending = some sequence) : sequence ≠ through := by
  obtain ⟨book, held, told⟩ := Option.bind_eq_some_iff.mp told
  obtain ⟨⟨thread, mem, waits, last, lastHeld, same⟩, -⟩ := ReviewThreads.told_iff.mp told
  exact same ▸ dead book held thread mem waits last lastHeld

theorem dead_of_pending_lt {sequence : Nat} (told : c.pending = some sequence)
    (before : sequence < through) : c.Dead through := by
  intro book held thread mem waits last lastHeld
  obtain ⟨other, held', told⟩ := Option.bind_eq_some_iff.mp told
  cases held.symm.trans held'
  have := (ReviewThreads.told_iff.mp told).2 thread mem waits last lastHeld
  omega

theorem unscheduled_reschedule (plain : c.scheduled ≠ some ⟨true⟩) :
    (c.reschedule false).scheduled ≠ some ⟨true⟩ := by
  unfold reschedule
  split_ifs
  · cases held : c.scheduled with
    | none => nofun
    | some notification =>
      obtain ⟨_ | _⟩ := notification
      · nofun
      · exact absurd held plain
  · exact plain

/-- A record that sends nothing in the review. -/
structure Unsent (unit : ReviewUnit) (token : Option Token) (record : Record) : Prop where
  token : ∀ named, token = some named → ¬ record.SentWith named
  unit : ∀ notice, record = .sent notice → notice.reviewUnit ≠ unit

theorem Unsent.ne {record : Record} {notice : Notice}
    (unsent : Unsent unit (some notice.token) record) : record ≠ .sent notice :=
  fun same => unsent.token _ rfl (by rw [same]; rfl)

theorem not_sentThrough {record : Record} (unsent : ¬ record.SentWith token) :
    ¬ record.SentThrough token through := by
  cases record <;> first | exact fun sent => unsent sent.1 | exact id

/-- What a move that sends nothing has to keep. -/
theorem Once.frame (records : List Record) (once : c.Once unit) (inv : c'.Inv unit)
    (token : c'.token = c.token) (shown : c'.book = none → c.book = none)
    (later : ∀ book', c'.book = some book' → c.token = none ∨
      ∃ book, c.book = some book ∧ book.sequence ≤ book'.sequence)
    (granted : c.token = none → c'.wakeup = none)
    (history : c'.history = records ++ c.history)
    (unsent : ∀ record ∈ records, Unsent unit c.token record)
    (removes : AtEach (RemovesOwn unit) c'.history)
    (unchanged : ∀ notice, c.token = some notice.token → .sent notice ∈ c.history →
      0 < notice.through → c'.wakeup = some ⟨notice.through, notice.through⟩ →
        Since (· = .sent notice) (Record.Touches notice.token) c'.history →
          Since (· = .sent notice) (Record.Repeats notice) c'.history)
    (past : ∀ token through, c.token = some token → 0 < through →
      Since (Record.Excuses unit token) (Record.SentThrough token through) c'.history →
        c.scheduled ≠ some ⟨true⟩ → c.Past token through →
          c'.scheduled ≠ some ⟨true⟩ ∧ c'.Past token through) :
    c'.Once unit := by
  have sends : ∀ notice, c.token = some notice.token → .sent notice ∈ c'.history →
      .sent notice ∈ c.history := by
    intro notice has mem
    rw [history] at mem
    refine (List.mem_append.mp mem).resolve_left fun added => ?_
    exact (has ▸ unsent _ added).ne rfl
  refine ⟨inv, fun absent => token.trans (once.shown (shown absent)), ?_, ?_, ?_, removes, ?_, ?_⟩
  · exact fun absent => granted (token.symm.trans absent)
  · rintro book' _ notice held has mem rfl
    rw [token] at has
    rcases later book' held with absent | ⟨book, held, later⟩
    · cases has.symm.trans absent
    · have := once.bounds book _ notice held has (sends notice has mem) rfl
      exact ⟨this.1, this.2.trans later⟩
  · intro notice has mem armed touched
    rw [token] at has
    have old := sends notice has mem
    obtain ⟨book, held⟩ : ∃ book, c.book = some book := Option.ne_none_iff_exists'.mp fun absent => by
      cases has.symm.trans (once.shown absent)
    exact unchanged notice has old (once.bounds book _ notice held has old rfl).1 armed touched
  · intro named through has since
    rw [token] at has
    have before : Since (Record.Excuses unit named) (Record.SentThrough named through) c.history := by
      rw [history] at since
      exact since.of_append fun record mem => not_sentThrough ((unsent record mem).token _ has)
    obtain ⟨sent, mem, tells⟩ := before.exists_mem
    obtain ⟨book, held⟩ : ∃ book, c.book = some book := Option.ne_none_iff_exists'.mp fun absent => by
      cases has.symm.trans (once.shown absent)
    have positive : 0 < through := by
      cases sent with
      | sent notice =>
        obtain ⟨same, rfl⟩ := tells
        exact (once.bounds book _ notice held has mem same).1
      | _ => exact tells.elim
    obtain ⟨plain, why⟩ := once.past named through has before
    exact past named through has positive since plain why
  · rw [history]
    exact once.tells.append fun record mem _ notice same named =>
      absurd named ((unsent record mem).unit notice same)

/-- A wakeup that stays as it is keeps what is known of it. -/
theorem Once.unchanged_append {records : List Record} (once : c.Once unit)
    (unsent : ∀ record ∈ records, Unsent unit c.token record)
    (untouched : ∀ record ∈ records, ∀ token, c.token = some token → ¬ record.Touches token)
    {notice : Notice} (has : c.token = some notice.token) (mem : .sent notice ∈ c.history)
    (armed : c.wakeup = some ⟨notice.through, notice.through⟩)
    (touched : Since (· = .sent notice) (Record.Touches notice.token) (records ++ c.history)) :
    Since (· = .sent notice) (Record.Repeats notice) (records ++ c.history) := by
  have before := touched.of_append fun record mem => untouched record mem _ has
  exact (once.unchanged notice has mem armed before).append fun record mem =>
    (has ▸ unsent record mem).ne

theorem Once.removes_append (records : List Record) (once : c.Once unit)
    (plain : ∀ record ∈ records, ∀ notice e, record = .outcome notice (some e) true →
      notice.reviewUnit ≠ unit) : AtEach (RemovesOwn unit) (records ++ c.history) :=
  once.removes.append fun record mem _ notice e same named =>
    absurd named (plain record mem notice e same)

theorem Past.append (records : List Record) (why : c.Past token through)
    (unsent : ∀ record ∈ records, ¬ record.SentWith token) (wakeup : c'.wakeup = c.wakeup)
    (history : c'.history = records ++ c.history) (dead : c.Dead through → c'.Dead through) :
    c'.Past token through := by
  unfold Past at why ⊢
  rw [wakeup, history]
  exact why.imp_right (Or.imp (And.imp_left dead) (And.imp_left fun lost => lost.append unsent))

/-- Whatever becomes of the document, a comment that is last nowhere in what waits stays so. -/
theorem Dead.extends {base after : ReviewThreads} (dead : c.Dead through)
    (held : c.book = some base) (sound : base.Sound) (ext : ReviewThreads.Extends base after)
    (shut : ReviewThreads.KeepsShut base after) (within : through ≤ base.sequence)
    (book : c'.book = some after) (recipient : c'.recipient = c.recipient) : c'.Dead through := by
  intro other held' thread mem waits last lastHeld same
  cases book.symm.trans held'
  rw [recipient] at waits
  rcases ext.pendingFor sound shut mem waits lastHeld with new | ⟨kept, memKept, -, waited, lastKept⟩
  · omega
  · exact dead base held kept memKept waited last lastKept same

theorem Once.within (once : c.Once unit) {book : ReviewThreads} (held : c.book = some book)
    (has : c.token = some token)
    (since : Since (Record.Excuses unit token) (Record.SentThrough token through) c.history) :
    through ≤ book.sequence := by
  obtain ⟨sent, mem, tells⟩ := since.exists_mem
  cases sent with
  | sent notice =>
    obtain ⟨same, rfl⟩ := tells
    exact (once.bounds book token notice held has mem same).2
  | _ => exact tells.elim

theorem unsent_posted {message : MessageId} : Unsent unit c.token (.posted unit message) :=
  ⟨fun _ _ => id, nofun⟩

theorem unsent_published {event : Event} : Unsent unit c.token (.published event) :=
  ⟨fun _ _ => id, nofun⟩

theorem Once.revise {base after : ReviewThreads} {new : Option MessageId} (once : c.Once unit)
    (before : c.book = some base ∨ c.book = none ∧ base.Sound) (receives : Receives base after new) :
    Once unit ({ c with
      book := some after
      history := new.elim c.history fun id => .posted unit id :: c.history }.reschedule false) := by
  have records : ∃ records : List Record, (∀ record ∈ records, ∃ id, record = .posted unit id) ∧
      (new.elim c.history fun id => .posted unit id :: c.history) = records ++ c.history := by
    cases new with
    | none => exact ⟨[], nofun, rfl⟩
    | some id => exact ⟨[.posted unit id], fun record mem => ⟨id, List.mem_singleton.mp mem⟩, rfl⟩
  obtain ⟨records, posted, history⟩ := records
  have unsent : ∀ record ∈ records, Unsent unit c.token record := fun record mem => by
    obtain ⟨id, rfl⟩ := posted record mem
    exact unsent_posted
  have held : ∀ token, c.token = some token → c.book = some base := fun token has =>
    before.resolve_right fun ⟨absent, _⟩ => by
      cases has.symm.trans (once.shown absent)
  refine once.frame records (once.inv.revise before receives) (by simp) (by simp) (fun book' has => ?_)
    (fun absent => by simpa using once.granted absent) ((history_reschedule).trans history) unsent ?_
    (fun notice has mem _ armed touched => ?_) fun token through has _ since plain why => ?_
  · rw [book_reschedule] at has
    cases has
    cases absent : c.token with
    | none => exact .inl rfl
    | some token => exact .inr ⟨base, held token absent, receives.extends_.sequence⟩
  · rw [history_reschedule, history]
    exact once.removes_append records fun record mem notice e same => by
      obtain ⟨id, rfl⟩ := posted record mem
      cases same
  · rw [history_reschedule, history] at touched ⊢
    rw [wakeup_reschedule] at armed
    refine once.unchanged_append unsent (fun record mem _ _ => ?_) has mem armed touched
    obtain ⟨message, rfl⟩ := posted record mem
    exact id
  · have there := held token has
    rw [history_reschedule, history] at since
    have before := since.of_append fun record mem => not_sentThrough ((unsent record mem).token _ has)
    refine ⟨unscheduled_reschedule plain, why.append records (fun record mem => (unsent record mem).token _ has)
      wakeup_reschedule (history_reschedule.trans history) fun dead => ?_⟩
    exact dead.extends there (once.inv.sound base there) receives.extends_ receives.shut
      (once.within there has before) book_reschedule recipient_reschedule

theorem Once.attend {base after : ReviewThreads} (once : c.Once unit) (held : c.book = some base)
    (quiet : ReviewThreads.Quiet base after) : Once unit { c with book := some after } := by
  obtain ⟨ext, shut, agents⟩ := quiet
  refine once.frame [] (once.inv.attend held ⟨ext, shut, agents⟩) rfl
    (fun absent => nomatch absent) ?_ once.granted rfl nofun once.removes
    (fun notice has mem _ armed touched => once.unchanged notice has mem armed touched)
    fun token through has _ since plain why => ?_
  · rintro _ ⟨⟩
    exact .inr ⟨base, held, ext.sequence⟩
  · refine ⟨plain, Past.append [] why nofun rfl rfl fun dead => ?_⟩
    exact dead.extends held (once.inv.sound base held) ext shut (once.within held has since) rfl rfl

theorem Once.ask {base after : ReviewThreads} {retried : SortedMap ThreadId Nat} {id : ThreadId}
    {asked : Record} (once : c.Once unit) (held : c.book = some base)
    (releases : Releases base after c.retried retried id)
    (how : asked = .retried unit id ∨ asked = .reopened unit id) :
    Once unit ({ c with
      book := some after
      retried := retried
      history := asked :: c.history }.reschedule true) := by
  have unsent : ∀ record ∈ [asked], Unsent unit c.token record := fun record mem => by
    obtain rfl := List.mem_singleton.mp mem
    rcases how with rfl | rfl <;> exact ⟨fun _ _ => fun sent => sent, nofun⟩
  refine once.frame [asked] (once.inv.ask held releases how) (by simp) (by simp) (fun book' has => ?_)
    (fun absent => by simpa using once.granted absent) history_reschedule unsent ?_
    (fun notice has mem _ armed touched => ?_) fun token through has _ since => ?_
  · rw [book_reschedule] at has
    cases has
    exact .inr ⟨base, held, releases.extends_.sequence⟩
  · rw [history_reschedule]
    refine once.removes_append [asked] fun record mem notice e same => ?_
    obtain rfl := List.mem_singleton.mp mem
    rcases how with rfl | rfl <;> cases same
  · rw [history_reschedule] at touched ⊢
    rw [wakeup_reschedule] at armed
    refine once.unchanged_append unsent (fun record mem token _ touches => ?_) has mem armed touched
    obtain rfl := List.mem_singleton.mp mem
    rcases how with rfl | rfl <;> exact touches
  · rw [history_reschedule] at since
    refine absurd ?_ since.1
    rcases how with rfl | rfl <;> exact rfl

/-- A move that leaves the wakeup and what was said of it, and may take the schedule back. -/
theorem Once.keep {scheduled : Option Notification} (records : List Record) (once : c.Once unit)
    (inv : Inv unit { c with scheduled := scheduled, history := records ++ c.history })
    (unsent : ∀ record ∈ records, Unsent unit c.token record)
    (untouched : ∀ record ∈ records, ∀ token, c.token = some token → ¬ record.Touches token)
    (plain : ∀ record ∈ records, ∀ notice e, record = .outcome notice (some e) true →
      notice.reviewUnit ≠ unit)
    (kept : scheduled = c.scheduled ∨ scheduled = none) :
    Once unit { c with scheduled := scheduled, history := records ++ c.history } := by
  refine once.frame records inv rfl id (fun book held => .inr ⟨book, held, le_rfl⟩) once.granted rfl
    unsent (once.removes_append records plain)
    (fun notice has mem _ armed touched => once.unchanged_append unsent untouched has mem armed touched)
    fun token through has _ since unscheduled why => ?_
  refine ⟨?_, why.append records (fun record mem => (unsent record mem).token _ has) rfl rfl id⟩
  rcases kept with rfl | rfl
  · exact unscheduled
  · nofun

theorem unsent_of_foreign {record : Record} (foreign : c.Foreign unit record) :
    Unsent unit c.token record := by
  refine ⟨fun token has sent => ?_, ?_⟩
  · cases record <;> first | exact foreign.2 (by rw [has]; exact congrArg some sent.symm) | exact sent
  · rintro notice rfl
    exact foreign.1

theorem Once.tell {record : Record} (once : c.Once unit) (foreign : c.Foreign unit record) :
    Once unit (c.record record) := by
  refine once.keep [record] (once.inv.tell foreign) (fun other mem => ?_)
    (fun other mem token has touches => ?_) (fun other mem notice e same => ?_) (.inl rfl)
  · rw [List.mem_singleton.mp mem]
    exact unsent_of_foreign foreign
  · obtain rfl := List.mem_singleton.mp mem
    cases other <;>
      first | exact foreign.2 (by rw [has]; exact congrArg some touches.symm) | exact touches
  · obtain rfl := (List.mem_singleton.mp mem).symm.trans same
    exact (foreign.resolve_left fun both => nomatch both.1).1 rfl

theorem Once.cancel (once : c.Once unit) (nothing : c.waits = false)
    (inv : Inv unit { c with scheduled := none, wakeup := none }) :
    Once unit { c with scheduled := none, wakeup := none } :=
  once.frame [] inv rfl id (fun book held => .inr ⟨book, held, le_rfl⟩) (fun _ => rfl) rfl nofun
    once.removes (fun _ _ _ _ armed => nomatch armed) fun _ through _ _ _ _ _ =>
      ⟨nofun, .inr (.inl ⟨dead_of_not_waits nothing through, fun _ armed => nomatch armed⟩)⟩

theorem Once.answer (once : c.Once unit) (nothing : c.waits = false)
    (inv : Inv unit { c with wakeup := c.wakeup.map Wakeup.answered }) :
    Once unit { c with wakeup := c.wakeup.map Wakeup.answered } := by
  refine once.frame [] inv rfl id (fun book held => .inr ⟨book, held, le_rfl⟩)
    (fun absent => congrArg (Option.map Wakeup.answered) (once.granted absent)) rfl nofun once.removes
    (fun notice _ _ positive armed => ?_) fun _ through _ positive _ plain _ =>
      ⟨plain, .inr (.inl ⟨dead_of_not_waits nothing through, fun wakeup armed => ?_⟩)⟩
  · obtain ⟨_, -, same⟩ := Option.map_eq_some_iff.mp armed
    have zero : 0 = notice.through := congrArg Wakeup.requestedThrough same
    exact absurd zero positive.ne
  · obtain ⟨_, -, rfl⟩ := Option.map_eq_some_iff.mp armed
    exact positive.ne

theorem Once.interrupt (once : c.Once unit) (has : c.token = some token)
    (inv : Inv unit { c with
      wakeup := c.wakeup.map Wakeup.interrupted
      history := .interrupted unit token :: c.history }) :
    Once unit { c with
      wakeup := c.wakeup.map Wakeup.interrupted
      history := .interrupted unit token :: c.history } := by
  refine once.frame [.interrupted unit token] inv rfl id (fun book held => .inr ⟨book, held, le_rfl⟩)
    (fun absent => congrArg (Option.map Wakeup.interrupted) (once.granted absent)) rfl
    (fun record mem => ?_)
    (once.removes_append [.interrupted unit token] fun record mem notice e same => ?_)
    (fun notice _ _ positive armed => ?_) fun named _ has' _ since => ?_
  · rw [List.mem_singleton.mp mem]
    exact ⟨fun _ _ => id, nofun⟩
  · cases (List.mem_singleton.mp mem).symm.trans same
  · obtain ⟨_, -, same⟩ := Option.map_eq_some_iff.mp armed
    have zero : 0 = notice.through := congrArg Wakeup.notifiedThrough same
    exact absurd zero positive.ne
  · exact absurd (Option.some.inj (has.symm.trans has')) since.1

/-- A wakeup requested with an access for a comment that the access was not told of, or was told
of before something that allows it again. -/
theorem Once.requested {sequence : Nat} (scheduled : Option Notification) (once : c.Once unit)
    (has : c.token = some token) (told : c.pending = some sequence)
    (unscheduled : c.scheduled ≠ some ⟨true⟩ → scheduled ≠ some ⟨true⟩)
    (wakeup : Wakeup) (asks : wakeup.requestedThrough = sequence)
    (notifies : c.scheduled ≠ some ⟨true⟩ → ∀ before, c.wakeup = some before →
      wakeup.notifiedThrough = before.notifiedThrough)
    (heeds : c.scheduled ≠ some ⟨true⟩ → ¬ Renews c.history unit token sequence)
    (inv : Inv unit { c with
      scheduled := scheduled
      wakeup := some wakeup
      history := .requested unit token sequence :: c.history }) :
    Once unit { c with
      scheduled := scheduled
      wakeup := some wakeup
      history := .requested unit token sequence :: c.history } := by
  refine once.frame [.requested unit token sequence] inv rfl id
    (fun book held => .inr ⟨book, held, le_rfl⟩) (fun absent => nomatch has.symm.trans absent) rfl
    (fun record mem => ?_)
    (once.removes_append [.requested unit token sequence] fun record mem notice e same => ?_)
    (fun notice has' _ _ armed _ => ?_) fun named through has' _ since plain why => ?_
  · rw [List.mem_singleton.mp mem]
    exact ⟨fun _ _ => id, nofun⟩
  · cases (List.mem_singleton.mp mem).symm.trans same
  · obtain rfl := Option.some.inj (has.symm.trans has')
    refine ⟨nofun, .inl ⟨rfl, ?_⟩⟩
    rw [← asks, Option.some.inj armed]
  · obtain rfl := Option.some.inj (has.symm.trans has')
    have before := since.of_cons id
    refine ⟨unscheduled plain, ?_⟩
    rcases why with ⟨earlier, armed, marked⟩ | ⟨dead, -⟩ | ⟨lost, -⟩
    · exact .inl ⟨wakeup, rfl, (notifies plain earlier armed).symm ▸ marked⟩
    · refine .inr (.inl ⟨dead, fun _ armed => ?_⟩)
      cases armed
      exact asks ▸ dead.ne_pending told
    · rcases lt_trichotomy through sequence with later | rfl | earlier
      · refine .inr (.inr ⟨⟨id, .inr lost⟩, fun _ armed => ?_⟩)
        cases armed
        exact asks ▸ later
      · exact absurd ⟨lost, before⟩ (heeds plain)
      · refine .inr (.inl ⟨dead_of_pending_lt told earlier, fun _ armed => ?_⟩)
        cases armed
        exact asks ▸ earlier.ne

theorem Once.grant {sequence : Nat} {wakeup : Wakeup} (once : c.Once unit)
    (told : c.pending = some sequence) (fresh : ∀ record ∈ c.history, record.token ≠ some token)
    (inv : Inv unit { c with
      scheduled := none
      token := some token
      wakeup := some wakeup
      history := .requested unit token sequence :: .granted unit token :: c.history }) :
    Once unit { c with
      scheduled := none
      token := some token
      wakeup := some wakeup
      history := .requested unit token sequence :: .granted unit token :: c.history } := by
  have unknown : ∀ notice : Notice, notice.token = token →
      .sent notice ∉ .requested unit token sequence :: .granted unit token :: c.history := by
    intro notice same mem
    rcases List.mem_cons.mp mem with ⟨⟨⟩⟩ | mem
    rcases List.mem_cons.mp mem with ⟨⟨⟩⟩ | mem
    exact fresh _ mem (congrArg some same)
  obtain ⟨book, held, -⟩ := Option.bind_eq_some_iff.mp told
  refine ⟨inv, fun absent => absurd (held.symm.trans absent) nofun, (fun absent => nomatch absent),
    ?_, ?_, ⟨nofun, nofun, once.removes⟩, ?_, ⟨nofun, nofun, once.tells⟩⟩
  · rintro _ _ notice _ ⟨⟩ mem same
    exact absurd mem (unknown notice same)
  · intro notice has mem
    exact absurd mem (unknown notice (Option.some.inj has).symm)
  · rintro named through ⟨⟩ since
    obtain ⟨sent, mem, tells⟩ := since.exists_mem
    cases sent with
    | sent notice => exact absurd mem (unknown notice tells.1)
    | _ => exact tells.elim

theorem Once.send {wakeup : Wakeup} {id : Nat} (once : c.Once unit) (has : c.token = some token)
    (armed : c.wakeup = some wakeup) (polls : wakeup.needsPoll = true)
    (unscheduled : c.scheduled ≠ some ⟨true⟩)
    (inv : Inv unit { c with
      wakeup := some wakeup.sent
      history := .sent ⟨id, unit, token, wakeup.requestedThrough⟩ :: c.history }) :
    Once unit { c with
      wakeup := some wakeup.sent
      history := .sent ⟨id, unit, token, wakeup.requestedThrough⟩ :: c.history } := by
  have before := Wakeup.needsPoll_iff.mp polls
  refine ⟨inv, once.shown, (fun absent => nomatch has.symm.trans absent), ?_, ?_,
    ⟨nofun, once.removes⟩, ?_, ?_, once.tells⟩
  · rintro book named notice held has' mem rfl
    rcases List.mem_cons.mp mem with ⟨⟨⟩⟩ | old
    · exact ⟨by dsimp only; omega, (once.inv.bounded book wakeup held armed).1⟩
    · exact once.bounds book _ notice held has' old rfl
  · intro notice has' mem marked touched
    have later := Option.some.inj marked
    refine ⟨touched.1, .inl ⟨Option.some.inj (has.symm.trans has'), ?_⟩⟩
    exact congrArg Wakeup.requestedThrough later
  · intro named through has' since
    obtain rfl := Option.some.inj (has.symm.trans has')
    refine ⟨unscheduled, ?_⟩
    rcases since.2 with ⟨-, rfl⟩ | since
    · exact .inl ⟨_, rfl, le_rfl⟩
    · obtain ⟨-, ⟨earlier, armed', marked⟩ | ⟨dead, other⟩ | ⟨-, later⟩⟩ :=
        once.past token through has since
      · cases armed.symm.trans armed'
        exact .inl ⟨_, rfl, marked.trans before.le⟩
      · refine .inr (.inl ⟨dead, fun _ sent => ?_⟩)
        cases sent
        exact other wakeup armed
      · exact .inl ⟨_, rfl, (later wakeup armed).le⟩
  · rintro notice ⟨⟩ - since
    obtain ⟨-, ⟨earlier, armed', marked⟩ | ⟨-, other⟩ | ⟨-, later⟩⟩ := once.past token _ has since
    · cases armed.symm.trans armed'
      dsimp only at marked
      omega
    · exact other wakeup armed rfl
    · exact lt_irrefl _ (later wakeup armed)

/-- A move that takes the wakeup away, and says so. -/
theorem Once.lose (records : List Record) (once : c.Once unit) (inv : c'.Inv unit)
    (token : c'.token = c.token) (book : c'.book = c.book) (wakeup : c'.wakeup = none)
    (history : c'.history = records ++ c.history)
    (unsent : ∀ record ∈ records, Unsent unit c.token record)
    (removes : AtEach (RemovesOwn unit) c'.history)
    (scheduled : c.scheduled ≠ some ⟨true⟩ → c'.scheduled ≠ some ⟨true⟩)
    (lost : ∀ token, c.token = some token → Lost token c'.history) : c'.Once unit := by
  refine once.frame records inv token (book ▸ id)
    (fun other held => .inr ⟨other, book ▸ held, le_rfl⟩) (fun _ => wakeup) history unsent removes
    (fun _ _ _ _ armed => nomatch wakeup.symm.trans armed) fun token through has _ _ plain _ => ?_
  exact ⟨scheduled plain, .inr (.inr ⟨lost token has, fun _ armed => nomatch wakeup.symm.trans armed⟩)⟩

theorem Once.drop {failure : WakeupFailure} (once : c.Once unit) (has : c.token = some token)
    (inv : Inv unit { c with
      wakeup := none
      history := .published (.wakeup unit (some failure)) :: .dropped unit token :: c.history }) :
    Once unit { c with
      wakeup := none
      history := .published (.wakeup unit (some failure)) :: .dropped unit token :: c.history } := by
  refine once.lose [_, _] inv rfl rfl rfl rfl (fun record mem => ?_)
    ⟨nofun, nofun, once.removes⟩ id fun named has' => ?_
  · rcases List.mem_pair.mp mem with rfl | rfl <;> exact ⟨fun _ _ => id, nofun⟩
  · exact ⟨id, .inr ⟨id, .inl (Option.some.inj (has.symm.trans has'))⟩⟩

theorem Once.mismatch (once : c.Once unit) (has : c.token = some token)
    (inv : Inv unit ({ c with
      wakeup := none
      history := .dropped unit token :: c.history }.reschedule false)) :
    Once unit ({ c with
      wakeup := none
      history := .dropped unit token :: c.history }.reschedule false) := by
  refine once.lose [.dropped unit token] inv token_reschedule book_reschedule
    wakeup_reschedule history_reschedule (fun record mem => ?_) ?_
    (fun plain => unscheduled_reschedule plain) fun named has' => ?_
  · rw [List.mem_singleton.mp mem]
    exact ⟨fun _ _ => id, nofun⟩
  · rw [history_reschedule]
    exact ⟨nofun, once.removes⟩
  · rw [history_reschedule]
    exact ⟨id, .inl (Option.some.inj (has.symm.trans has'))⟩

theorem Once.fail {notice : Notice} {e : Prompts.PromptError} {failure : WakeupFailure}
    (once : c.Once unit) (has : c.token = some notice.token) (sent : .sent notice ∈ c.history)
    (unchanged : c.wakeup.any (·.unchangedSince notice.through) = true)
    (heeds : ¬ Since (· = .sent notice) (Record.Repeats notice) c.history)
    (inv : Inv unit { c with
      wakeup := none
      history := .published (.wakeup unit (some failure)) ::
        .outcome notice (some e) true :: c.history }) :
    Once unit { c with
      wakeup := none
      history := .published (.wakeup unit (some failure)) ::
        .outcome notice (some e) true :: c.history } := by
  refine once.lose [_, _] inv rfl rfl rfl rfl (fun record mem => ?_)
    ⟨nofun, ?_, once.removes⟩ id fun named has' => ?_
  · rcases List.mem_pair.mp mem with rfl | rfl <;> exact ⟨fun _ _ => id, nofun⟩
  · rintro _ _ ⟨⟩ - touched
    refine heeds (once.unchanged notice has sent ?_ touched)
    cases armed : c.wakeup with
    | none =>
      rw [armed] at unchanged
      cases unchanged
    | some wakeup =>
      rw [armed] at unchanged
      obtain ⟨requested, notified⟩ := Wakeup.unchangedSince_iff.mp unchanged
      obtain ⟨_, _⟩ := wakeup
      obtain rfl : _ = notice.through := requested
      obtain rfl : _ = notice.through := notified
      rfl
  · exact ⟨id, .inr ⟨id, .inl ⟨rfl, Option.some.inj (has.symm.trans has')⟩⟩⟩

/-- Every move that heeds what was told before keeps that no comment is told again. -/
theorem Once.move (once : c.Once unit) (moved : Move True unit c c') : c'.Once unit := by
  have inv := once.inv.move moved
  cases moved with
  | revise base after new before receives => exact once.revise before receives
  | attend base after held leaves => exact once.attend held leaves
  | ask base after retried id asked held releases how => exact once.ask held releases how
  | cancel nothing => exact once.cancel nothing inv
  | giveUp failure =>
    refine once.keep [.published (.wakeup unit (some failure))] inv (fun record mem => ?_)
      (fun record mem token _ => ?_) (fun record mem notice e same => ?_) (.inr rfl)
    · rw [List.mem_singleton.mp mem]
      exact unsent_published
    · rw [List.mem_singleton.mp mem]
      exact id
    · cases (List.mem_singleton.mp mem).symm.trans same
  | grant token sequence retry told fresh => exact once.grant told fresh inv
  | request token sequence retry has told scheduled heeds =>
    have plain : c.scheduled ≠ some ⟨true⟩ → retry = false := fun differs => by
      cases retry
      · rfl
      · exact absurd scheduled differs
    refine once.requested none has told (fun _ => nofun) _ Wakeup.requestedThrough_request
      (fun differs before armed => ?_) (fun differs => heeds trivial (plain differs)) inv
    rw [Wakeup.notifiedThrough_request, plain differs, armed]
    rfl
  | renew token sequence has told lost heeds =>
    refine once.requested c.scheduled has told id _ rfl (fun _ before armed => ?_) (fun _ => heeds trivial) inv
    cases lost.symm.trans armed
  | interrupt token has => exact once.interrupt has inv
  | answer nothing => exact once.answer nothing inv
  | send token wakeup id has armed polls unscheduled fresh =>
    exact once.send has armed polls unscheduled inv
  | drop token failure has => exact once.drop has inv
  | mismatch token has waits => exact once.mismatch has inv
  | fail notice e removed failure has sent removes heeds =>
    cases removed with
    | true => exact once.fail has sent removes.symm (heeds trivial rfl) inv
    | false =>
      refine once.keep [_, _] inv (fun record mem => ?_) (fun record mem token _ => ?_)
        (fun record mem other e same => ?_) (.inl rfl)
      · rcases List.mem_pair.mp mem with rfl | rfl <;> exact ⟨fun _ _ => id, nofun⟩
      · rcases List.mem_pair.mp mem with rfl | rfl <;> exact id
      · rcases List.mem_pair.mp mem with rfl | rfl <;> cases same
  | tell record foreign => exact once.tell foreign

end Channel

end ProgressiveReviewer.Wakeups
