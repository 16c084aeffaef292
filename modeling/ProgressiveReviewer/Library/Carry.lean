import ProgressiveReviewer.Library.Placement
import ProgressiveReviewer.Library.Merge

/-! Carrying edits over another script: two scripts start from one list, and the edits
of the second that no edit of the first touches are made where the first one puts what
they replace. They stay in order, replace the same elements, and lists of lines stay
lists of lines. -/

namespace ProgressiveReviewer.Library

open Extent

variable {α : Type*}

/-- The edit `e` lands at `target`: no edit of `upstream` touches what it replaces. -/
structure Carried (upstream : List Edit) (e : Edit) (target : Extent) : Prop where
  placed : Placed 0 0 upstream e.before target
  apart : ∀ u ∈ upstream, Apart u.before e.before

/-- The choices that make carried edits at their targets. -/
def carry (targets : List (Edit × Extent)) : List Choice :=
  targets.map fun entry => .take ⟨entry.2, entry.1.after⟩

/-- What is placed stays within the list. -/
theorem Placed.stop_le_length {xs ys : List α} {gap i j : Nat} {es : List Edit} {r r' : Extent}
    (script : ScriptFrom xs ys gap i j es) (placed : Placed i j es r r') (hi : i ≤ xs.length)
    (hj : j ≤ ys.length) (stop : r.stop ≤ xs.length) : r'.stop ≤ ys.length := by
  induction es generalizing gap i j with
  | nil =>
    have lengths := ScriptFrom.lengths script hi hj rfl
    have := placed.stop
    omega
  | cons e es ih =>
    have fit := script.1
    have sameGap := fit.same_gap
    have afterLe := fit.after_le
    have afterStop := fit.after_stop
    rcases placed with ⟨before, shifted⟩ | later
    · have := shifted.stop
      omega
    · exact ih script.2 later fit.before_stop afterStop

/-- What is placed up to the end of one list is placed up to the end of the other. -/
theorem Placed.stop_eq_length {xs ys : List α} {gap i j : Nat} {es : List Edit} {r r' : Extent}
    (script : ScriptFrom xs ys gap i j es) (placed : Placed i j es r r') (le : r.start ≤ r.stop)
    (apart : ∀ e ∈ es, Apart e.before r) (hi : i ≤ xs.length) (hj : j ≤ ys.length)
    (stop : r.stop = xs.length) : r'.stop = ys.length := by
  induction es generalizing gap i j with
  | nil =>
    have lengths := ScriptFrom.lengths script hi hj rfl
    have := placed.stop
    omega
  | cons e es ih =>
    have fit := script.1
    have beforeLe := fit.before_le
    have beforeStop := fit.before_stop
    rcases placed with ⟨before, _⟩ | later
    · -- `e` would have to be empty at the end of `xs`, where it touches `r`
      have clear := apart e List.mem_cons_self
      unfold Apart at clear
      split_ifs at clear <;> omega
    · exact ih script.2 later (fun f mem => apart f (List.mem_cons_of_mem e mem)) beforeStop
        fit.after_stop

/-- The element before a placed empty extent is placed with it, unless both stand at
the very start. -/
theorem Placed.grow_back {xs ys : List α} {gap i j : Nat} {es : List Edit} {r r' : Extent}
    (script : ScriptFrom xs ys gap i j es) (placed : Placed i j es r r') (empty : r.start = r.stop)
    (apart : ∀ e ∈ es, Apart e.before r) :
    (r.start = i ∧ r'.start = j) ∨
      (i < r.start ∧ j < r'.start ∧
        Placed i j es ⟨r.start - 1, r.stop⟩ ⟨r'.start - 1, r'.stop⟩) := by
  have block : ∀ {a b : Nat}, Shifted a b r r' → (r.start = a ∧ r'.start = b) ∨
      (a < r.start ∧ b < r'.start ∧ Shifted a b ⟨r.start - 1, r.stop⟩ ⟨r'.start - 1, r'.stop⟩) := by
    intro a b shifted
    have fromBlock := shifted.from_block
    have start := shifted.start
    by_cases atStart : r.start = a
    · exact Or.inl ⟨atStart, by omega⟩
    · exact Or.inr ⟨by omega, by omega, by dsimp only; omega, by dsimp only; omega, shifted.stop⟩
  induction es generalizing gap i j with
  | nil => exact block placed
  | cons e es ih =>
    have fit := script.1
    have beforeStart := fit.before_start
    have afterStart := fit.after_start
    have beforeLe := fit.before_le
    have afterLe := fit.after_le
    rcases placed with ⟨before, shifted⟩ | later
    · rcases block shifted with atStart | ⟨hi, hj, shifted'⟩
      · exact Or.inl atStart
      · exact Or.inr ⟨hi, hj, Or.inl ⟨before, shifted'⟩⟩
    · have bound := later.from script.2
      have clear := apart e List.mem_cons_self
      rcases ih script.2 later fun f mem => apart f (List.mem_cons_of_mem e mem) with
        ⟨atStart, _⟩ | ⟨hi, hj, grown⟩
      · unfold Apart at clear
        split_ifs at clear <;> omega
      · exact Or.inr ⟨by omega, by omega, Or.inr grown⟩

/-- The element before an edit is one the script keeps. -/
theorem ScriptFrom.element_before {xs ys : List α} {gap i j : Nat} {es : List Edit} {e : Edit}
    (script : ScriptFrom xs ys gap i j es) (mem : e ∈ es) (inside : i < e.before.start) :
    j < e.after.start ∧
      cut xs ⟨e.before.start - 1, e.before.start⟩ = cut ys ⟨e.after.start - 1, e.after.start⟩ := by
  induction es generalizing gap i j with
  | nil => cases mem
  | cons f es ih =>
    have fit := script.1
    have sameGap := fit.same_gap
    have afterStart := fit.after_start
    rcases List.mem_cons.mp mem with rfl | mem
    · refine ⟨by omega, ?_⟩
      have hx := cut_cut xs ⟨i, e.before.start⟩ (a := e.before.start - 1 - i)
        (b := e.before.start - i) (by dsimp only; omega)
      have hy := cut_cut ys ⟨j, e.after.start⟩ (a := e.before.start - 1 - i)
        (b := e.before.start - i) (by dsimp only; omega)
      rw [fit.kept, hy] at hx
      dsimp only at hx
      rw [show i + (e.before.start - 1 - i) = e.before.start - 1 by omega,
        show i + (e.before.start - i) = e.before.start by omega,
        show j + (e.before.start - 1 - i) = e.after.start - 1 by omega,
        show j + (e.before.start - i) = e.after.start by omega] at hx
      exact hx.symm
    · have bounds := script.2.bounds mem
      have afterLe := fit.after_le
      obtain ⟨bound, same⟩ := ih script.2 mem (by omega)
      exact ⟨by omega, same⟩

/-- An edit that reaches the end of one list reaches the end of the other. -/
theorem ScriptFrom.stop_eq_length {xs ys : List α} {gap i j : Nat} {es : List Edit} {e : Edit}
    (script : ScriptFrom xs ys gap i j es) (mem : e ∈ es) (stop : e.after.stop = ys.length) :
    e.before.stop = xs.length := by
  induction es generalizing gap i j with
  | nil => cases mem
  | cons f es ih =>
    rcases List.mem_cons.mp mem with rfl | mem
    · cases es with
      | nil =>
        have := ScriptFrom.lengths script.2 script.1.before_stop script.1.after_stop rfl
        omega
      | cons g es =>
        have bounds := script.2.bounds (e := g) List.mem_cons_self
        omega
    · exact ih script.2 mem

variable {olds news revs : List α} {upstream es : List Edit} {targets : List (Edit × Extent)}

/-- Carried edits replace the same elements. -/
theorem Carried.cut_eq {e : Edit} {target : Extent} (up : Script olds news upstream)
    (carried : Carried upstream e target) : e.before.cut olds = target.cut news :=
  carried.placed.cut_eq up

/-- Carried edits stay in order. -/
theorem carried_pairwise (up : Script olds news upstream) (own : Script olds revs es)
    (sub : (targets.map Prod.fst).Sublist es)
    (carried : ∀ entry ∈ targets, Carried upstream entry.1 entry.2) :
    targets.Pairwise fun a b => a.2.stop ≤ b.2.start := by
  have order := own.pairwise.sublist sub
  rw [List.pairwise_map] at order
  refine order.imp_of_mem fun {a b} ma mb less => ?_
  have boundsA := own.bounds (sub.subset (List.mem_map_of_mem ma))
  have boundsB := own.bounds (sub.subset (List.mem_map_of_mem mb))
  exact (carried a ma).placed.mono up (carried b mb).placed boundsA.2.2.1 boundsB.2.2.1
    (carried a ma).apart (by omega)

variable {nl : α → Bool}

/-- Nothing without a terminator comes before a carried edit that puts something. -/
theorem terminated_before_target {olds news revs : List (List α)} {upstream es : List Edit}
    (up : Script olds news upstream) (own : Script olds revs es) {e : Edit} {target : Extent}
    (mem : e ∈ es) (carried : Carried upstream e target) (stop : target.stop ≤ news.length)
    (hn : LineList nl news) (hr : LineList nl revs) (pos : Nat) :
    ∀ line ∈ cut news ⟨pos, target.start⟩, Terminated nl line := by
  have bounds := own.bounds mem
  have size := carried.placed.size
  by_cases inside : target.start < news.length
  · exact hn.terminated_of_cut inside
  · -- the target is empty at the end, so the edit only adds, after a kept line
    have empty : e.before.start = e.before.stop := by omega
    have grown := carried.placed.grow_back up empty carried.apart
    intro line inCut
    obtain ⟨n, get⟩ := List.mem_iff_getElem?.mp inCut
    rw [cut_getElem?] at get
    split_ifs at get with small
    dsimp only at small get
    by_cases earlier : pos + n + 1 < news.length
    · exact hn.terminated_get get earlier
    · have bound := (List.getElem?_eq_some_iff.mp get).1
      rcases grown with ⟨_, atStart⟩ | ⟨hi, hj, grown⟩
      · omega
      · have same := grown.cut_eq up
        obtain ⟨hjs, kept⟩ := own.element_before mem hi
        rw [← empty, kept, show target.stop = target.start by omega] at same
        have terminated := hr.terminated_of_cut
          (r := ⟨e.after.start - 1, e.after.start⟩) (by dsimp only; omega) line
        apply terminated
        rw [same]
        refine List.mem_of_getElem? (i := 0) ?_
        rw [cut_getElem?, if_pos (by dsimp only; omega), ← get]
        congr 1
        dsimp only
        omega

/-- Lines with carried edits made are the lines of their text. -/
theorem lineList_carry {olds news revs : List (List α)} {upstream es : List Edit}
    (up : Script olds news upstream) (own : Script olds revs es)
    (sub : (targets.map Prod.fst).Sublist es)
    (carried : ∀ entry ∈ targets, Carried upstream entry.1 entry.2)
    (stops : ∀ entry ∈ targets, entry.2.stop ≤ news.length)
    (hn : LineList nl news) (hr : LineList nl revs) (pos : Nat) :
    LineList nl (merge news revs pos (carry targets)) := by
  induction targets generalizing pos with
  | nil => exact hn.sublist (List.drop_sublist pos news)
  | cons entry targets ih =>
    have own_mem := sub.subset (List.mem_map_of_mem (List.mem_cons_self (a := entry)))
    have bounds := own.bounds own_mem
    have first := carried entry List.mem_cons_self
    have rest := ih ((List.sublist_cons_self _ _).trans sub)
      (fun other mem => carried other (List.mem_cons_of_mem entry mem))
      (fun other mem => stops other (List.mem_cons_of_mem entry mem)) entry.2.stop
    have front := terminated_before_target up own own_mem first (stops entry List.mem_cons_self)
      hn hr pos
    simp only [carry, List.map_cons, merge, Choice.take, elements_nil, List.nil_append,
      elements_positions revs _ bounds.2.2.2.2.2.1]
    refine lineList_append.mpr ⟨hn.cut _, lineList_append.mpr ⟨hr.cut _, rest, ?_⟩, fun _ => front⟩
    intro more
    by_cases inside : entry.1.after.stop < revs.length
    · exact hr.terminated_of_cut inside
    · -- the edit reaches the end of both lists, so nothing comes after it
      refine absurd ?_ more
      have stop : entry.1.after.stop = revs.length := by omega
      have before := own.stop_eq_length own_mem stop
      have target := first.placed.stop_eq_length up bounds.2.2.1 first.apart (Nat.zero_le _)
        (Nat.zero_le _) before
      cases targets with
      | nil => simp [merge, target]
      | cons next targets =>
        have order := own.pairwise.sublist sub
        have nextMem := sub.subset (a := next.1) (by simp)
        have nextBounds := own.bounds nextMem
        have less := (List.pairwise_cons.mp order).1 next.1 (by simp)
        omega

end ProgressiveReviewer.Library
