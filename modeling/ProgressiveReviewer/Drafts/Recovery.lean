import ProgressiveReviewer.Drafts.Store
import ProgressiveReviewer.Threads.Apart

/-! Posted drafts stay away and unposted ones stay, in every run of reviewers that are careful. -/

namespace ProgressiveReviewer.Drafts

open Library Threads

theorem ids_after {book : ReviewThreads} (sound : book.Sound) (operation : Operation)
    (others : ∀ other, operation = .merge other → other.Sound) {id : MessageId}
    (mem : id ∈ book.messages.map Message.id) :
    id ∈ (book.after operation).messages.map Message.id := by
  obtain ⟨message, inside, rfl⟩ := List.mem_map.mp mem
  exact List.mem_map_of_mem
    ((ReviewThreads.continues_after sound operation others).mem_messages sound inside)

namespace Reviewers

variable {all after : Reviewers} {process : Process} {doing : Doing} {draft : Draft}

/-! ## What a process relies on -/

def Posted (all : Reviewers) (id : MessageId) : Prop :=
  id ∈ all.document.threads.messages.map Message.id

/-- In the draft document, or in the thread document still. -/
def Stored (all : Reviewers) (draft : Draft) : Prop :=
  draft ∈ all.drafts.drafts ∨ draft ∈ all.document.embeddedDrafts.drafts

/-- Threads that were read show each stored draft that is posted, and nothing that is not. -/
def Read (all : Reviewers) (threads : ReviewThreads) : Prop :=
  (∀ id ∈ threads.messages.map Message.id, all.Posted id) ∧
    ∀ draft, all.Stored draft → all.Posted draft.id → draft.id ∈ threads.messages.map Message.id

/-- Threads that were read to save a draft show it when it is posted. -/
def ReadFor (all : Reviewers) (threads : ReviewThreads) (draft : Draft) : Prop :=
  all.document.embeddedDrafts.drafts = [] ∧
    (all.Posted draft.id → draft.id ∈ threads.messages.map Message.id)

def UpdateFits (all : Reviewers) : Update → Prop
  | .migrate .load first => all.Read first
  | .migrate _ first => ∀ id ∈ first.messages.map Message.id, all.Posted id
  | .operate operation => ∀ other, operation = .merge other → other.Sound

def UseFits (all : Reviewers) (threads : ReviewThreads) : Purpose → Prop
  | .load => all.Read threads
  | .change change => (∀ id ∈ threads.messages.map Message.id, all.Posted id) ∧
      ∀ draft, change = .save draft → all.ReadFor threads draft

def Fits (all : Reviewers) (process : Process) : Doing → Prop
  | .idle | .loading _ => True
  | .waiting update => all.UpdateFits update
  | .locked update document | .adopted update document =>
    all.lock = some process ∧ document = all.document ∧ all.UpdateFits update
  | .ready purpose threads => all.UseFits threads purpose

structure Inv (all : Reviewers) : Prop where
  sound : all.document.threads.Sound
  one : all.drafts.OnePerThread
  fits : ∀ process, all.Fits process (all.doing process)
  kept : ∀ thread draft, all.kept thread = some draft →
    all.document.embeddedDrafts.drafts = [] ∧ draft.thread = thread ∧
      (draft ∈ all.drafts.drafts ∨ all.Posted draft.id)

/-! ## What other processes leave -/

/-- A change of the documents that no process outside the lock can notice. -/
structure Spares (all after : Reviewers) : Prop where
  posted : ∀ id, after.Posted id ↔ all.Posted id
  stored : ∀ draft, after.Stored draft → after.Posted draft.id → all.Stored draft
  embedded : all.document.embeddedDrafts.drafts = [] → after.document.embeddedDrafts.drafts = []

theorem Spares.read (spares : Spares all after) {threads : ReviewThreads} (read : all.Read threads) :
    after.Read threads :=
  ⟨fun id mem => (spares.posted id).mpr (read.1 id mem), fun draft stored posted =>
    read.2 draft (spares.stored draft stored posted) ((spares.posted _).mp posted)⟩

theorem Spares.update (spares : Spares all after) {update : Update} (fits : all.UpdateFits update) :
    after.UpdateFits update := by
  cases update with
  | operate operation => exact fits
  | migrate purpose first =>
    cases purpose with
    | load => exact spares.read fits
    | change change => exact fun id mem => (spares.posted id).mpr (fits id mem)

theorem Spares.use (spares : Spares all after) {threads : ReviewThreads} {purpose : Purpose}
    (fits : all.UseFits threads purpose) : after.UseFits threads purpose := by
  cases purpose with
  | load => exact spares.read fits
  | change change =>
    refine ⟨fun id mem => (spares.posted id).mpr (fits.1 id mem), fun draft same => ?_⟩
    obtain ⟨none, shown⟩ := fits.2 draft same
    exact ⟨spares.embedded none, fun posted => shown ((spares.posted _).mp posted)⟩

theorem Spares.fits (spares : Spares all after) (fits : all.Fits process doing)
    (holds : all.lock = some process →
      after.lock = some process ∧ after.document = all.document) : after.Fits process doing := by
  cases doing with
  | idle | loading => trivial
  | waiting update => exact spares.update fits
  | ready purpose threads => exact spares.use fits
  | locked update document | adopted update document =>
    obtain ⟨held, same, fits⟩ := fits
    exact ⟨(holds held).1, same.trans (holds held).2.symm, spares.update fits⟩

theorem spares_of_lock (lock : Option Process) : Spares all { all with lock } :=
  ⟨fun _ => Iff.rfl, fun _ stored _ => stored, id⟩

/-- One process moves, and the documents change so that what the others rely on stays. -/
theorem inv_of_move (moves : after.doing = Function.update all.doing process doing)
    (sound : after.document.threads.Sound) (one : after.drafts.OnePerThread)
    (fits : after.Fits process doing)
    (others : ∀ other, other ≠ process → after.Fits other (all.doing other))
    (kept : ∀ thread draft, after.kept thread = some draft →
      after.document.embeddedDrafts.drafts = [] ∧ draft.thread = thread ∧
        (draft ∈ after.drafts.drafts ∨ after.Posted draft.id)) : Inv after where
  sound := sound
  one := one
  kept := kept
  fits other := by
    rw [moves]
    by_cases same : other = process
    · rw [same, Function.update_self]
      exact fits
    · rw [Function.update_of_ne same]
      exact others other same

namespace Inv

variable (inv : Inv all)
include inv

/-- One process moves, and the lock changes hands without taking it from another. -/
theorem move {lock : Option Process}
    (holds : ∀ other, other ≠ process → all.lock = some other → lock = some other)
    (fits : Fits { all with lock } process doing) : Inv ({ all with lock }.move process doing) := by
  have moves : ({ all with lock }.move process doing).doing =
    Function.update all.doing process doing := rfl
  have spares : Spares all { all with lock } := spares_of_lock lock
  exact inv_of_move moves inv.sound inv.one fits
    (fun other apart => spares.fits (inv.fits other) fun held => ⟨holds other apart held, rfl⟩)
    inv.kept

theorem unlock (fits : (all.unlock process).Fits process doing) :
    Inv ((all.unlock process).move process doing) := by
  refine inv.move (fun other apart held => ?_) fits
  rw [held, if_neg fun same => apart (Option.some.inj same)]

theorem embedded_of_kept {thread : ThreadId} (held : all.kept thread = some draft) :
    all.document.embeddedDrafts.drafts = [] :=
  (inv.kept thread draft held).1

theorem read {purpose : Purpose} :
    Inv (if all.document.embeddedDrafts.drafts = [] then
      all.move process (.ready purpose all.document.threads)
      else all.move process (.waiting (.migrate purpose all.document.threads))) := by
  have current : all.Read all.document.threads := ⟨fun _ mem => mem, fun _ _ posted => posted⟩
  split_ifs with none
  · refine inv.move (fun _ _ held => held) ?_
    cases purpose with
    | load => exact current
    | change change => exact ⟨current.1, fun _ _ => ⟨none, id⟩⟩
  · refine inv.move (fun _ _ held => held) ?_
    cases purpose with
    | load => exact current
    | change change => exact current.1

/-- The drafts of the thread document are adopted: once a draft was saved, there are none. -/
theorem adopt {update : Update} {document : ThreadDocument}
    (locked : all.doing process = .locked update document) :
    Inv { all.move process (.adopted update document) with
      drafts := all.drafts.adopt document.embeddedDrafts } := by
  have own := inv.fits process
  rw [locked] at own
  obtain ⟨held, rfl, fits⟩ := own
  have spares : Spares all { all.move process (.adopted update all.document) with
      drafts := all.drafts.adopt all.document.embeddedDrafts } :=
    ⟨fun _ => Iff.rfl, fun draft stored _ => stored.elim SavedDrafts.mem_adopt .inr, id⟩
  refine inv_of_move rfl inv.sound (inv.one.adopt _) ⟨held, rfl, spares.update fits⟩
    (fun other _ => spares.fits (inv.fits other) fun held => ⟨held, rfl⟩) fun thread draft same => ?_
  obtain ⟨none, named, stays⟩ := inv.kept thread draft same
  refine ⟨none, named, stays.imp_left fun mem => ?_⟩
  change draft ∈ (all.document.embeddedDrafts.drafts.foldl SavedDrafts.keep all.drafts).drafts
  rwa [none]

/-- A draft that was saved stays when posted drafts are forgotten, unless it was posted. -/
theorem kept_forgetPosted {threads : ReviewThreads} {thread : ThreadId}
    (past : ∀ id ∈ threads.messages.map Message.id, all.Posted id)
    (held : all.kept thread = some draft) :
    draft ∈ (all.drafts.forgetPosted threads).drafts ∨ all.Posted draft.id := by
  rcases (inv.kept thread draft held).2.2 with mem | posted
  · by_cases listed : draft.id ∈ threads.messages.map Message.id
    · exact .inr (past _ listed)
    · exact .inl (SavedDrafts.mem_forgetPosted.mpr ⟨mem, listed⟩)
  · exact .inr posted

theorem drafts_changed {drafts : SavedDrafts} {kept : ThreadId → Option Draft}
    (one : drafts.OnePerThread)
    (from_ : ∀ draft ∈ drafts.drafts, all.Posted draft.id → draft ∈ all.drafts.drafts)
    (keeps : ∀ thread draft, kept thread = some draft →
      all.document.embeddedDrafts.drafts = [] ∧ draft.thread = thread ∧
        (draft ∈ drafts.drafts ∨ all.Posted draft.id)) :
    Inv { all.move process .idle with drafts, kept } := by
  have spares : Spares all { all.move process .idle with drafts, kept } :=
    ⟨fun _ => Iff.rfl, fun draft stored posted => stored.imp_left fun mem =>
      from_ draft mem posted, id⟩
  exact inv_of_move rfl inv.sound one trivial
    (fun other _ => spares.fits (inv.fits other) fun held => ⟨held, rfl⟩) keeps

theorem useThreads {purpose : Purpose} {threads : ReviewThreads}
    (ready : all.doing process = .ready purpose threads) :
    Inv (all.useThreads process threads purpose) := by
  have own := inv.fits process
  rw [ready] at own
  have idle : Inv (all.move process .idle) := inv.move (fun _ _ held => held) trivial
  cases purpose with
  | load => exact idle
  | change change =>
    obtain ⟨past, saves⟩ := own
    have forgot : (all.drafts.forgetPosted threads).OnePerThread := inv.one.filter _
    have old : ∀ draft ∈ (all.drafts.forgetPosted threads).drafts, draft ∈ all.drafts.drafts :=
      fun draft mem => (SavedDrafts.mem_forgetPosted.mp mem).1
    unfold Reviewers.useThreads
    dsimp only
    cases ok : all.changed change threads with
    | error => exact idle
    | ok drafts =>
      cases change with
      | save draft =>
        obtain ⟨rfl, absent⟩ := SavedDrafts.save_eq_ok ok
        obtain ⟨none, shown⟩ := saves draft rfl
        refine inv.drafts_changed (forgot.keep draft) (fun other mem posted => ?_)
          fun thread other held => ?_
        · rcases SavedDrafts.mem_keep.mp mem with ⟨mem, -⟩ | rfl
          · exact old other mem
          · exact absurd (shown posted) absent
        · rw [DraftChange.record, Function.update_apply] at held
          split_ifs at held with same
          · obtain rfl := Option.some.inj held
            exact ⟨none, same.symm, .inl (SavedDrafts.mem_keep.mpr (.inr rfl))⟩
          · have named := (inv.kept thread other held).2.1
            refine ⟨none, named, (inv.kept_forgetPosted past held).imp_left fun mem => ?_⟩
            exact SavedDrafts.mem_keep.mpr (.inl ⟨mem, fun equal => same (named.symm.trans equal)⟩)
      | discard thread =>
        obtain rfl : (all.drafts.forgetPosted threads).discard thread = drafts := Except.ok.inj ok
        refine inv.drafts_changed (forgot.filter _) (fun other mem _ =>
          old other (SavedDrafts.mem_discard.mp mem).1) fun name other held => ?_
        rw [DraftChange.record, Function.update_apply] at held
        split_ifs at held with same
        obtain ⟨none, named, -⟩ := inv.kept name other held
        refine ⟨none, named, (inv.kept_forgetPosted past held).imp_left fun mem => ?_⟩
        exact SavedDrafts.mem_discard.mpr ⟨mem, fun equal => same (named.symm.trans equal)⟩
      | forget =>
        obtain rfl : all.drafts.forgetPosted threads = drafts := Except.ok.inj ok
        exact inv.drafts_changed forgot (fun other mem _ => old other mem) fun name other held =>
          ⟨inv.embedded_of_kept held, (inv.kept name other held).2.1,
            inv.kept_forgetPosted past held⟩

/-- The thread document is written without drafts and with the same threads. -/
theorem rewritten {purpose : Purpose} {threads : ReviewThreads} (held : all.lock = some process)
    (fits : UseFits { all with document := ⟨all.document.threads, .empty⟩ } threads purpose) :
    Inv { (all.unlock process).move process (.ready purpose threads) with
      document := ⟨all.document.threads, .empty⟩ } := by
  have spares : Spares all { (all.unlock process).move process (.ready purpose threads) with
      document := ⟨all.document.threads, .empty⟩ } :=
    ⟨fun _ => Iff.rfl, fun _ stored _ => .inl (stored.resolve_right List.not_mem_nil), fun _ => rfl⟩
  have moves : ((all.unlock process).move process (.ready purpose threads)).doing =
    Function.update all.doing process (.ready purpose threads) := rfl
  refine inv_of_move moves inv.sound inv.one ?_ (fun other apart => ?_) fun thread draft same => ?_
  · cases purpose <;> exact fits
  · exact spares.fits (inv.fits other) fun taken =>
      absurd (Option.some.inj (taken.symm.trans held)) apart
  · exact ⟨rfl, (inv.kept thread draft same).2⟩

theorem operated {operation : Operation} (held : all.lock = some process)
    (others : ∀ other, operation = .merge other → other.Sound)
    (spares : ∀ other draft, other ≠ process → all.InHand other draft →
      draft.id ∈ (all.document.threads.after operation).messages.map Message.id →
        all.Posted draft.id) :
    Inv { (all.unlock process).move process .idle with
      document := ⟨all.document.threads.after operation, .empty⟩ } := by
  have grown : ∀ id, all.Posted id →
      id ∈ (all.document.threads.after operation).messages.map Message.id := fun id =>
    ids_after inv.sound operation others
  have readStays : ∀ {other threads}, other ≠ process → all.Read threads →
      (∀ draft ∈ all.drafts.drafts, all.InHand other draft) →
      Read { (all.unlock process).move process .idle with
        document := ⟨all.document.threads.after operation, .empty⟩ } threads := by
    intro other threads apart read hand
    refine ⟨fun id mem => grown id (read.1 id mem), fun draft stored posted => ?_⟩
    have mem : draft ∈ all.drafts.drafts := stored.resolve_right List.not_mem_nil
    exact read.2 draft (.inl mem) (spares other draft apart (hand draft mem) posted)
  have moves : ((all.unlock process).move process .idle).doing =
    Function.update all.doing process .idle := rfl
  refine inv_of_move moves (inv.sound.step operation others) inv.one trivial (fun other apart => ?_)
    fun thread draft same => ⟨rfl, (inv.kept thread draft same).2.1,
      (inv.kept thread draft same).2.2.imp_right (grown _)⟩
  have fits := inv.fits other
  cases doing : all.doing other with
  | idle | loading => trivial
  | locked update document | adopted update document =>
    rw [doing] at fits
    exact absurd (Option.some.inj (fits.1.symm.trans held)) apart
  | waiting update =>
    rw [doing] at fits
    cases update with
    | operate => exact fits
    | migrate purpose first =>
      cases purpose with
      | load => exact readStays apart fits fun draft mem => by rw [InHand, doing]; exact mem
      | change => exact fun id mem => grown id (fits id mem)
  | ready purpose threads =>
    rw [doing] at fits
    cases purpose with
    | load => exact readStays apart fits fun draft mem => by rw [InHand, doing]; exact mem
    | change change =>
      refine ⟨fun id mem => grown id (fits.1 id mem), fun draft same => ⟨rfl, fun posted => ?_⟩⟩
      refine (fits.2 draft same).2 (spares other draft apart ?_ posted)
      rw [InHand, doing, same]

theorem writeThreads {update : Update} {document : ThreadDocument}
    (adopted : all.doing process = .adopted update document) (careful : all.SparesDrafts process) :
    Inv (all.writeThreads process document update) := by
  have own := inv.fits process
  rw [adopted] at own
  obtain ⟨held, rfl, fits⟩ := own
  cases update with
  | migrate purpose first =>
    refine inv.rewritten held ?_
    have stored : ∀ draft, Stored { all with document := ⟨all.document.threads, .empty⟩ } draft →
        draft ∈ all.drafts.drafts := fun _ stored => stored.resolve_right List.not_mem_nil
    cases purpose with
    | load => exact ⟨fun _ mem => mem, fun _ _ posted => posted⟩
    | change change => exact ⟨fun _ mem => mem, fun _ _ => ⟨rfl, id⟩⟩
  | operate operation =>
    unfold Reviewers.writeThreads
    dsimp only
    have moved : (all.document.threads.perform operation).2 =
        all.document.threads.after operation := rfl
    cases done : all.document.threads.perform operation with
    | mk error threads =>
      rw [done] at moved
      cases error with
      | some e => exact inv.unlock trivial
      | none =>
        obtain rfl : threads = all.document.threads.after operation := moved
        exact inv.operated held fits (careful operation _ adopted)

theorem updateFits {update : Update} (doing : (all.doing process).update = some update) :
    all.UpdateFits update := by
  have own := inv.fits process
  cases at_ : all.doing process with
  | idle | loading | ready => rw [at_] at doing; cases doing
  | waiting other =>
    rw [at_] at own doing
    exact Option.some.inj doing ▸ own
  | locked other document | adopted other document =>
    rw [at_] at own doing
    exact Option.some.inj doing ▸ own.2.2

omit inv in
/-- A failed move of the drafts leaves a process with the threads it read first. -/
theorem useFits_of_fail {purpose : Purpose} {first : ReviewThreads}
    (fits : all.UpdateFits (.migrate purpose first)) (loads : ∀ draft, purpose ≠ .change (.save draft)) :
    all.UseFits first purpose := by
  cases purpose with
  | load => exact fits
  | change change => exact ⟨fits, fun draft same => absurd (congrArg Purpose.change same) (loads draft)⟩

theorem failUpdate {update : Update} (doing : (all.doing process).update = some update)
    (careful : all.MovesDrafts process) : Inv (all.failUpdate process update) := by
  have fits := inv.updateFits doing
  cases update with
  | operate => exact inv.unlock trivial
  | migrate purpose first =>
    have use := useFits_of_fail fits fun draft same => careful draft first (same ▸ doing)
    refine inv.unlock ?_
    cases purpose <;> exact use

theorem writeUnsynced {update : Update} {document : ThreadDocument}
    (adopted : all.doing process = .adopted update document) (careful : all.SparesDrafts process)
    (moves : all.MovesDrafts process) : Inv (all.writeUnsynced process document update) := by
  cases update with
  | operate => exact inv.writeThreads adopted careful
  | migrate purpose first =>
    have own := inv.fits process
    rw [adopted] at own
    obtain ⟨held, rfl, fits⟩ := own
    have use := useFits_of_fail fits fun draft same =>
      moves draft first (by rw [adopted, same]; rfl)
    have spares : Spares all { all with document := ⟨all.document.threads, .empty⟩ } :=
      ⟨fun _ => Iff.rfl, fun _ stored _ => .inl (stored.resolve_right List.not_mem_nil), fun _ => rfl⟩
    exact inv.rewritten held (spares.use use)

theorem step {action : Process × Action} (may : all.May action) (careful : all.Careful action) :
    Inv (all.step action) := by
  obtain ⟨process, action⟩ := action
  cases action with
  | load purpose => exact inv.move (fun _ _ held => held) trivial
  | update operation => exact inv.move (fun _ _ held => held) may.2
  | read =>
    obtain ⟨purpose, doing⟩ := may
    simp only [Reviewers.step, doing]
    exact inv.read
  | lock =>
    obtain ⟨free, update, doing⟩ := may
    simp only [Reviewers.step, doing]
    refine inv.move (fun other _ held => absurd (free.symm.trans held) nofun) ⟨rfl, rfl, ?_⟩
    have fits : all.UpdateFits update := inv.updateFits (by rw [doing]; rfl)
    exact (spares_of_lock (some process)).update fits
  | adopt =>
    obtain ⟨update, document, doing⟩ := may
    simp only [Reviewers.step, doing]
    exact inv.adopt doing
  | write =>
    obtain ⟨update, document, doing⟩ := may
    simp only [Reviewers.step, doing]
    exact inv.writeThreads doing careful
  | unsynced =>
    obtain ⟨update, document, doing⟩ := may
    simp only [Reviewers.step, doing]
    exact inv.writeUnsynced doing careful.1 careful.2
  | use =>
    obtain ⟨purpose, threads, doing⟩ := may
    simp only [Reviewers.step, doing]
    exact inv.useThreads doing
  | fail =>
    cases doing : (all.doing process).update with
    | none =>
      simp only [Reviewers.step, doing]
      exact inv.move (fun _ _ held => held) trivial
    | some update =>
      simp only [Reviewers.step, doing]
      exact inv.failUpdate doing careful
  | crash => exact inv.unlock trivial

end Inv

theorem inv_start {document : ThreadDocument} {drafts : SavedDrafts}
    (sound : document.threads.Sound) (one : drafts.OnePerThread) : Inv (start document drafts) where
  sound := sound
  one := one
  fits _ := trivial
  kept := nofun

/-- Runs of reviewer processes, each step of them careful. -/
def Runs (document : ThreadDocument) (drafts : SavedDrafts) : Reviewers → Prop :=
  Reaches step (fun all action => all.May action ∧ all.Careful action) (start document drafts)

/-- What the drafts keep at every point of a run. -/
structure KeepsDrafts (all : Reviewers) : Prop where
  one : all.drafts.OnePerThread
  loaded : ∀ process threads, all.doing process = .ready .load threads →
    ∀ draft ∈ (all.loaded threads).drafts, ¬ all.Posted draft.id
  saved : ∀ process draft threads, all.doing process = .ready (.change (.save draft)) threads →
    ∀ drafts, all.changed (.save draft) threads = .ok drafts → ¬ all.Posted draft.id
  adopted : ∀ process update document, all.doing process = .locked update document →
    ∀ thread draft, all.kept thread = some draft →
      all.drafts.adopt document.embeddedDrafts = all.drafts
  kept : ∀ thread draft, all.kept thread = some draft → ¬ all.Posted draft.id →
    draft ∈ all.drafts.drafts

theorem keepsDrafts_of_inv (inv : Inv all) : KeepsDrafts all where
  one := inv.one
  loaded process threads doing draft mem posted := by
    have own := inv.fits process
    rw [doing] at own
    obtain ⟨stored, absent⟩ := SavedDrafts.mem_forgetPosted.mp mem
    exact absent (own.2 draft (.inl stored) posted)
  saved process draft threads doing drafts ok posted := by
    have own := inv.fits process
    rw [doing] at own
    exact (SavedDrafts.save_eq_ok ok).2 ((own.2 draft rfl).2 posted)
  adopted process update document doing thread draft held := by
    have own := inv.fits process
    rw [doing] at own
    obtain ⟨-, rfl, -⟩ := own
    rw [SavedDrafts.adopt, inv.embedded_of_kept held]
    rfl
  kept thread draft held unposted := (inv.kept thread draft held).2.2.resolve_right unposted

/-- Any sequence of changes leaves one draft per thread; and in every run whose steps are careful,
whatever crashes, no posted draft is loaded or saved again, and the draft last saved for a thread
is never replaced by an adopted one and stays until it is posted. -/
theorem drafts_kept {document : ThreadDocument} {drafts : SavedDrafts}
    (reached : ReviewThreads.Reachable (fun _ _ => True) document.threads)
    (one : drafts.OnePerThread) (run : Runs document drafts all) :
    (∀ changes : List SavedDrafts.Change,
      (changes.foldl SavedDrafts.after .empty).OnePerThread) ∧ KeepsDrafts all :=
  ⟨SavedDrafts.onePerThread_of_changes, keepsDrafts_of_inv
    (Reaches.invariant (inv_start reached.sound one)
      (fun _ _ inv may => inv.step may.1 may.2) run)⟩

section Samples

def note : Draft where
  target := .file "a.rs"
  source := ⟨⟨none, some "a.rs"⟩, "+line"⟩
  replyTo := none
  text := "A note"
  id := "note"
  thread := "thread"

def newer : Draft := { note with text := "A longer note" }

/-- Two processes have the draft in hand when a third one posts it. -/
def postedMeanwhile : Reviewers :=
  [(0, .load (.change (.save note))), (0, .read), (1, .load .load), (1, .read),
    (2, .update (.post note.post 0)), (2, .lock), (2, .adopt), (2, .write)].foldl step
      (start ⟨.new "unit", .empty⟩ ⟨[note]⟩)

/-- A save goes on after moving an older draft failed, and the draft is moved again. -/
def movedAgain : Reviewers :=
  [(0, .load (.change (.save newer))), (0, .read), (0, .lock), (0, .adopt), (0, .fail), (0, .use),
    (1, .load .load), (1, .read), (1, .lock)].foldl step
      (start ⟨.new "unit", ⟨[note]⟩⟩ .empty)

/-- A posted draft is loaded and saved again, and an adopted draft replaces a later one. -/
theorem posted_draft_comes_back :
    (Reaches step May (start ⟨.new "unit", .empty⟩ ⟨[note]⟩) postedMeanwhile ∧
      postedMeanwhile.Posted note.id ∧
      postedMeanwhile.doing 1 = .ready .load (.new "unit") ∧
      note ∈ (postedMeanwhile.loaded (.new "unit")).drafts ∧
      postedMeanwhile.doing 0 = .ready (.change (.save note)) (.new "unit") ∧
      (postedMeanwhile.changed (.save note) (.new "unit")).toOption = some ⟨[note]⟩) ∧
    Reaches step May (start ⟨.new "unit", ⟨[note]⟩⟩ .empty) movedAgain ∧
      movedAgain.kept "thread" = some newer ∧ newer ∈ movedAgain.drafts.drafts ∧
      newer ∉ (movedAgain.step (1, .adopt)).drafts.drafts := by
  have posted : Reaches step May (start ⟨.new "unit", .empty⟩ ⟨[note]⟩) postedMeanwhile :=
    Reaches.foldl .start ⟨rfl, ⟨_, rfl⟩, rfl, ⟨_, rfl⟩, ⟨rfl, nofun⟩, ⟨rfl, _, rfl⟩, ⟨_, _, rfl⟩,
      ⟨_, _, rfl⟩, trivial⟩
  have moved : Reaches step May (start ⟨.new "unit", ⟨[note]⟩⟩ .empty) movedAgain :=
    Reaches.foldl .start ⟨rfl, ⟨_, rfl⟩, ⟨rfl, _, rfl⟩, ⟨_, _, rfl⟩, trivial, ⟨_, _, rfl⟩, rfl,
      ⟨_, rfl⟩, ⟨rfl, _, rfl⟩, trivial⟩
  exact ⟨⟨posted, by unfold Posted; decide, rfl, by decide, rfl, by decide⟩,
    moved, by decide, by decide, by decide⟩

/-- The draft saved last is stored while another process adopts the older one. -/
def savedAfter : Reviewers :=
  [(0, .load (.change (.save newer))), (0, .read), (0, .lock), (0, .adopt), (0, .write), (0, .use),
    (1, .load .load), (1, .crash)].foldl step (start ⟨.new "unit", ⟨[note]⟩⟩ .empty)

theorem saved_draft_stays : savedAfter.drafts.drafts = [newer] ∧
    newer ∈ savedAfter.drafts.drafts := by
  have run : Runs ⟨.new "unit", ⟨[note]⟩⟩ .empty savedAfter := Reaches.foldl .start
    ⟨⟨rfl, trivial⟩, ⟨⟨_, rfl⟩, trivial⟩, ⟨⟨rfl, _, rfl⟩, trivial⟩, ⟨⟨_, _, rfl⟩, trivial⟩,
      ⟨⟨_, _, rfl⟩, fun operation document migrates => by cases migrates⟩,
      ⟨⟨_, _, rfl⟩, trivial⟩, ⟨rfl, trivial⟩, ⟨trivial, trivial⟩, trivial⟩
  have none : SavedDrafts.OnePerThread .empty := List.nodup_nil
  obtain ⟨-, keeps⟩ := drafts_kept (.new "unit") none run
  exact ⟨by decide, keeps.kept "thread" newer (by decide)
    (by unfold Posted; decide)⟩

end Samples

end Reviewers

end ProgressiveReviewer.Drafts
