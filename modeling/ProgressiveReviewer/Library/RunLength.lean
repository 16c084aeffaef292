import ProgressiveReviewer.Library.EditScript

/-! Run-length lists: the positions of a list that carry another value than the one
most of them do, as extents of equal values. Runs built position by position are
canonical, and looking a position up gives its value back. -/

namespace ProgressiveReviewer.Library

/-- Consecutive positions with one value. -/
structure Run (α : Type*) where
  extent : Extent
  value : α
  deriving DecidableEq, Repr

/-- Two elements of a pairwise related list are the same or related one way. -/
theorem pairwise_either {α : Type*} {R : α → α → Prop} {xs : List α} (h : xs.Pairwise R)
    {a b : α} (ha : a ∈ xs) (hb : b ∈ xs) : a = b ∨ R a b ∨ R b a := by
  induction h with
  | nil => cases ha
  | cons first _ ih =>
    rcases List.mem_cons.mp ha with rfl | inA <;> rcases List.mem_cons.mp hb with rfl | inB
    · exact Or.inl rfl
    · exact Or.inr (Or.inl (first b inB))
    · exact Or.inr (Or.inr (first a inA))
    · exact ih inA inB

namespace Run

variable {α : Type*}

/-- Some run gives position `n` the value `a`. -/
def Covers (runs : List (Run α)) (n : Nat) (a : α) : Prop :=
  ∃ run ∈ runs, run.extent.holds n = true ∧ run.value = a

/-- The value of the first run that holds a position. -/
def lookup (runs : List (Run α)) (n : Nat) : Option α :=
  (runs.find? fun run => run.extent.holds n).map (·.value)

/-- Runs that come in order and apart from each other, none of them empty and none
with the value `usual`; two that touch differ in value. -/
structure Canonical (usual : α) (runs : List (Run α)) : Prop where
  nonempty : ∀ run ∈ runs, run.extent.start < run.extent.stop
  unusual : ∀ run ∈ runs, run.value ≠ usual
  sorted : runs.Pairwise fun a b =>
    a.extent.stop ≤ b.extent.start ∧ (a.extent.stop = b.extent.start → a.value ≠ b.value)

theorem covers_of_lookup {runs : List (Run α)} {n : Nat} {a : α}
    (h : lookup runs n = some a) : Covers runs n a := by
  obtain ⟨run, found, rfl⟩ := Option.map_eq_some_iff.mp h
  have holds := List.find?_some (p := fun run : Run α => run.extent.holds n) found
  exact ⟨run, List.mem_of_find?_eq_some found, holds, rfl⟩

theorem not_covers_of_lookup {runs : List (Run α)} {n : Nat} (h : lookup runs n = none)
    (a : α) : ¬ Covers runs n a := by
  rintro ⟨run, mem, holds, rfl⟩
  have none_holds := List.find?_eq_none.mp (Option.map_eq_none_iff.mp h) run mem
  exact none_holds holds

/-- Apart runs give a position one value. -/
theorem Covers.unique {runs : List (Run α)} {n : Nat} {a b : α}
    (sorted : runs.Pairwise fun a b => a.extent.stop ≤ b.extent.start)
    (ha : Covers runs n a) (hb : Covers runs n b) : a = b := by
  obtain ⟨run, mem, holds, rfl⟩ := ha
  obtain ⟨run', mem', holds', rfl⟩ := hb
  rw [Extent.holds_iff] at holds holds'
  rcases pairwise_either sorted mem mem' with rfl | before | after
  · rfl
  · omega
  · omega

theorem covers_append {front back : List (Run α)} {n : Nat} {a : α} :
    Covers (front ++ back) n a ↔ Covers front n a ∨ Covers back n a := by
  simp [Covers, or_and_right, exists_or]

theorem covers_single {r : Extent} {n : Nat} {a b : α} :
    Covers [⟨r, b⟩] n a ↔ (r.start ≤ n ∧ n < r.stop) ∧ b = a := by
  simp [Covers]

variable [DecidableEq α]

/-- One more position: it lengthens the last run when that run ends there with the
same value, else it starts a run. -/
def push (runs : List (Run α)) (n : Nat) (a : α) : List (Run α) :=
  match runs.getLast? with
  | some last =>
    if last.extent.stop = n ∧ last.value = a then
      runs.dropLast ++ [⟨⟨last.extent.start, last.extent.stop + 1⟩, last.value⟩]
    else runs ++ [⟨⟨n, n + 1⟩, a⟩]
  | none => runs ++ [⟨⟨n, n + 1⟩, a⟩]

/-- The runs of the values that differ from `usual`. -/
def collect (usual : α) (values : List (Nat × α)) : List (Run α) :=
  values.foldl (fun runs entry => if entry.2 = usual then runs else push runs entry.1 entry.2) []

theorem push_nil (n : Nat) (a : α) : push [] n a = [⟨⟨n, n + 1⟩, a⟩] := rfl

theorem push_append (runs : List (Run α)) (last : Run α) (n : Nat) (a : α) :
    push (runs ++ [last]) n a =
      if last.extent.stop = n ∧ last.value = a then
        runs ++ [⟨⟨last.extent.start, n + 1⟩, a⟩]
      else runs ++ [last] ++ [⟨⟨n, n + 1⟩, a⟩] := by
  unfold push
  simp only [List.getLast?_concat, List.dropLast_concat]
  split_ifs with same
  · rw [same.1, same.2]
  · rfl

/-- A pushed position takes its value, the others keep theirs. -/
theorem covers_push {runs : List (Run α)} {n m : Nat} {a b : α}
    (nonempty : ∀ run ∈ runs, run.extent.start < run.extent.stop) :
    Covers (push runs n a) m b ↔ Covers runs m b ∨ (m = n ∧ a = b) := by
  have single : Covers [(⟨⟨n, n + 1⟩, a⟩ : Run α)] m b ↔ m = n ∧ a = b := by
    rw [covers_single]
    constructor
    · rintro ⟨⟨low, high⟩, rfl⟩
      exact ⟨by dsimp only at *; omega, rfl⟩
    · rintro ⟨rfl, rfl⟩
      exact ⟨⟨Nat.le_refl m, Nat.lt_succ_self m⟩, rfl⟩
  rcases List.eq_nil_or_concat runs with rfl | ⟨front, last, rfl⟩
  · rw [push_nil, single]
    simp [Covers]
  · rw [List.concat_eq_append] at *
    rw [push_append]
    split_ifs with same
    · obtain ⟨rfl, rfl⟩ := same
      have lt := nonempty last (by simp)
      have longer : Covers [(⟨⟨last.extent.start, last.extent.stop + 1⟩, last.value⟩ : Run α)] m b ↔
          Covers [last] m b ∨ (m = last.extent.stop ∧ last.value = b) := by
        rw [covers_single, show last = ⟨last.extent, last.value⟩ from rfl, covers_single]
        dsimp only
        constructor
        · rintro ⟨⟨low, high⟩, eq⟩
          by_cases inside : m < last.extent.stop
          · exact Or.inl ⟨⟨low, inside⟩, eq⟩
          · exact Or.inr ⟨by omega, eq⟩
        · rintro (⟨⟨low, high⟩, eq⟩ | ⟨rfl, eq⟩)
          · exact ⟨⟨low, by omega⟩, eq⟩
          · exact ⟨⟨by omega, by omega⟩, eq⟩
      rw [covers_append, longer, covers_append, or_assoc]
    · rw [covers_append, single]

/-- A position behind all runs keeps them canonical. -/
theorem Canonical.push {usual : α} {runs : List (Run α)} {n : Nat} {a : α}
    (h : Canonical usual runs) (behind : ∀ run ∈ runs, run.extent.stop ≤ n) (ne : a ≠ usual) :
    Canonical usual (push runs n a) ∧ ∀ run ∈ Run.push runs n a, run.extent.stop ≤ n + 1 := by
  rcases List.eq_nil_or_concat runs with rfl | ⟨front, last, rfl⟩
  · rw [push_nil]
    exact ⟨⟨by simp, by simpa using ne, by simp⟩, by simp⟩
  · rw [List.concat_eq_append] at *
    have order := List.pairwise_append.mp h.sorted
    have lastLe := behind last (by simp)
    have lastLt := h.nonempty last (by simp)
    rw [push_append]
    split_ifs with same
    · obtain ⟨rfl, rfl⟩ := same
      refine ⟨⟨?_, ?_, ?_⟩, ?_⟩
      · rintro run mem
        rcases List.mem_append.mp mem with mem | mem
        · exact h.nonempty run (by simp [mem])
        · rw [List.mem_singleton] at mem
          subst mem
          dsimp only
          omega
      · rintro run mem
        rcases List.mem_append.mp mem with mem | mem
        · exact h.unusual run (by simp [mem])
        · rw [List.mem_singleton] at mem
          subst mem
          exact ne
      · refine List.pairwise_append.mpr ⟨order.1, by simp, ?_⟩
        intro run mem next mem'
        rw [List.mem_singleton] at mem'
        subst mem'
        exact order.2.2 run mem last (by simp)
      · rintro run mem
        rcases List.mem_append.mp mem with mem | mem
        · have := behind run (by simp [mem])
          omega
        · rw [List.mem_singleton] at mem
          subst mem
          exact Nat.le_refl _
    · refine ⟨⟨?_, ?_, ?_⟩, ?_⟩
      · rintro run mem
        rcases List.mem_append.mp mem with mem | mem
        · exact h.nonempty run mem
        · rw [List.mem_singleton] at mem
          subst mem
          exact Nat.lt_succ_self n
      · rintro run mem
        rcases List.mem_append.mp mem with mem | mem
        · exact h.unusual run mem
        · rw [List.mem_singleton] at mem
          subst mem
          exact ne
      · refine List.pairwise_append.mpr ⟨h.sorted, by simp, ?_⟩
        intro run mem next mem'
        rw [List.mem_singleton] at mem'
        subst mem'
        refine ⟨behind run mem, fun touch eq => ?_⟩
        rcases List.mem_append.mp mem with mem | mem
        · -- only the last run can end at `n`
          have := (order.2.2 run mem last (by simp)).1
          dsimp only at touch
          omega
        · rw [List.mem_singleton] at mem
          subst mem
          exact same ⟨touch, eq⟩
      · rintro run mem
        rcases List.mem_append.mp mem with mem | mem
        · have := behind run mem
          omega
        · rw [List.mem_singleton] at mem
          subst mem
          exact Nat.le_refl _

/-- Collecting keeps what the runs so far hold and adds the unusual values. -/
theorem collect_step {usual : α} {values : List (Nat × α)} {runs : List (Run α)}
    (h : Canonical usual runs) (sorted : values.Pairwise fun x y => x.1 < y.1)
    (behind : ∀ entry ∈ values, ∀ run ∈ runs, run.extent.stop ≤ entry.1) :
    let result := values.foldl
      (fun runs entry => if entry.2 = usual then runs else Run.push runs entry.1 entry.2) runs
    Canonical usual result ∧
      ∀ n a, Covers result n a ↔ Covers runs n a ∨ ((n, a) ∈ values ∧ a ≠ usual) := by
  induction values generalizing runs with
  | nil => exact ⟨h, by simp⟩
  | cons entry values ih =>
    obtain ⟨first, rest⟩ := List.pairwise_cons.mp sorted
    simp only [List.foldl_cons]
    by_cases skip : entry.2 = usual
    · simp only [if_pos skip]
      have done := ih h rest fun later mem => behind later (List.mem_cons_of_mem entry mem)
      refine ⟨done.1, fun n a => ?_⟩
      rw [done.2, List.mem_cons]
      constructor
      · rintro (old | ⟨mem, ne⟩)
        · exact Or.inl old
        · exact Or.inr ⟨Or.inr mem, ne⟩
      · rintro (old | ⟨rfl | mem, ne⟩)
        · exact Or.inl old
        · exact absurd skip ne
        · exact Or.inr ⟨mem, ne⟩
    · simp only [if_neg skip]
      have pushed := h.push (behind entry List.mem_cons_self) skip
      have done := ih pushed.1 rest fun later mem run runMem => by
        have := pushed.2 run runMem
        have := first later mem
        omega
      refine ⟨done.1, fun n a => ?_⟩
      rw [done.2, covers_push h.nonempty, List.mem_cons]
      constructor
      · rintro ((old | ⟨rfl, rfl⟩) | ⟨mem, ne⟩)
        · exact Or.inl old
        · exact Or.inr ⟨Or.inl rfl, skip⟩
        · exact Or.inr ⟨Or.inr mem, ne⟩
      · rintro (old | ⟨rfl | mem, ne⟩)
        · exact Or.inl (Or.inl old)
        · exact Or.inl (Or.inr ⟨rfl, rfl⟩)
        · exact Or.inr ⟨mem, ne⟩

theorem collect_canonical {usual : α} {values : List (Nat × α)}
    (sorted : values.Pairwise fun x y => x.1 < y.1) : Canonical usual (collect usual values) :=
  (collect_step ⟨by simp, by simp, by simp⟩ sorted (by simp)).1

/-- What collecting gives a position is its value. -/
theorem lookup_collect {usual : α} {values : List (Nat × α)}
    (sorted : values.Pairwise fun x y => x.1 < y.1) {n : Nat} {a : α} (mem : (n, a) ∈ values) :
    (lookup (collect usual values) n).getD usual = a := by
  have covers := (collect_step (⟨by simp, by simp, by simp⟩ : Canonical usual []) sorted (by simp)).2
  have same : ∀ b, (n, b) ∈ values → b = a := by
    intro b mem'
    rcases pairwise_either sorted mem mem' with same | less | less
    · exact (congrArg Prod.snd same).symm
    · exact absurd less (Nat.lt_irrefl n)
    · exact absurd less (Nat.lt_irrefl n)
  cases found : lookup (collect usual values) n with
  | some b =>
    rcases (covers n b).mp (covers_of_lookup found) with old | ⟨mem', _⟩
    · simp [Covers] at old
    · exact same b mem'
  | none =>
    by_contra ne
    exact not_covers_of_lookup found a ((covers n a).mpr (Or.inr ⟨mem, fun eq => ne eq.symm⟩))

end Run

end ProgressiveReviewer.Library
