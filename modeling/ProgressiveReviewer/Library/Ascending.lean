import Mathlib.Data.List.Sort
import Mathlib.Order.Interval.Finset.Nat
import ProgressiveReviewer.Library.LineText

/-! Lists of which some elements carry a number, each larger than the ones before. Looking for a
number from either end finds the same element. -/

namespace ProgressiveReviewer.Library

open Extent

variable {α β : Type*}

/-- The index of the last element with a property. -/
def rposition (p : α → Bool) (as : List α) : Option Nat :=
  (as.reverse.findIdx? p).map fun index => as.length - 1 - index

theorem findIdx?_split {p : α → Bool} {front back : List α} {a : α} (own : p a = true)
    (clean : ∀ b ∈ front, p b = false) : (front ++ a :: back).findIdx? p = some front.length := by
  rw [List.findIdx?_append, List.findIdx?_eq_none_iff.mpr clean, List.findIdx?_cons, if_pos own]
  simp

theorem rposition_split {p : α → Bool} {front back : List α} {a : α} (own : p a = true)
    (clean : ∀ b ∈ back, p b = false) : rposition p (front ++ a :: back) = some front.length := by
  have turned : (front ++ a :: back).reverse = back.reverse ++ a :: front.reverse := by simp
  rw [rposition, turned, findIdx?_split own fun b mem => clean b (List.mem_reverse.mp mem)]
  simp only [Option.map_some, List.length_append, List.length_cons, List.length_reverse]
  exact congrArg some (by omega)

theorem rposition_none {p : α → Bool} {as : List α} (clean : ∀ a ∈ as, p a = false) :
    rposition p as = none := by
  rw [rposition, List.findIdx?_eq_none_iff.mpr fun a mem => clean a (List.mem_reverse.mp mem)]
  rfl

variable [LinearOrder β] {f : α → Option β} {as : List α}

/-- The elements that carry a number carry larger and larger ones. -/
def Ascending (f : α → Option β) (as : List α) : Prop := (as.filterMap f).Pairwise (· < ·)

/-- The one element with a number, with the smaller ones before it and the larger ones after. -/
theorem Ascending.split (ascending : Ascending f as) {n : β} (held : n ∈ as.filterMap f) :
    ∃ front a back, as = front ++ a :: back ∧ f a = some n ∧ (∀ m ∈ front.filterMap f, m < n) ∧
      ∀ m ∈ back.filterMap f, n < m := by
  obtain ⟨a, mem, own⟩ := List.mem_filterMap.mp held
  obtain ⟨front, back, rfl⟩ := List.append_of_mem mem
  rw [Ascending, List.filterMap_append, List.filterMap_cons, own, List.pairwise_append] at ascending
  obtain ⟨-, after, before⟩ := ascending
  exact ⟨front, a, back, rfl, own, fun m held => before m held n List.mem_cons_self,
    fun m held => (List.pairwise_cons.mp after).1 m held⟩

/-- No element of a part carries a number that the part does not have. -/
theorem carries_none {n : β} (clean : n ∉ as.filterMap f) :
    ∀ a ∈ as, decide (f a = some n) = false := fun a mem =>
  decide_eq_false fun own => clean (List.mem_filterMap.mpr ⟨a, mem, own⟩)

theorem Ascending.findIdx? (ascending : Ascending f as) {front back : List α} {a : α} {n : β}
    (split : as = front ++ a :: back) (own : f a = some n) :
    as.findIdx? (fun a => decide (f a = some n)) = some front.length ∧
      rposition (fun a => decide (f a = some n)) as = some front.length := by
  subst split
  rw [Ascending, List.filterMap_append, List.filterMap_cons, own, List.pairwise_append] at ascending
  obtain ⟨-, after, before⟩ := ascending
  refine ⟨findIdx?_split (decide_eq_true own) (carries_none fun held => ?_),
    rposition_split (decide_eq_true own) (carries_none fun held => ?_)⟩
  · exact lt_irrefl n (before n held n List.mem_cons_self)
  · exact lt_irrefl n ((List.pairwise_cons.mp after).1 n held)

/-- A number is found at the same place from either end. -/
theorem Ascending.rposition_eq (ascending : Ascending f as) (n : β) :
    rposition (fun a => decide (f a = some n)) as = as.findIdx? fun a => decide (f a = some n) := by
  by_cases held : n ∈ as.filterMap f
  · obtain ⟨front, a, back, split, own, -⟩ := ascending.split held
    obtain ⟨found, found'⟩ := ascending.findIdx? split own
    rw [found, found']
  · rw [rposition_none (carries_none held), List.findIdx?_eq_none_iff.mpr (carries_none held)]

/-- The stretch from one number to another that is not smaller: it starts and ends with their
elements, and has exactly the numbers between. -/
theorem Ascending.stretch (ascending : Ascending f as) {first last : β}
    (held : first ∈ as.filterMap f) (held' : last ∈ as.filterMap f) (le : first ≤ last) :
    ∃ front mid back, as = front ++ mid ++ back ∧ mid.head?.bind f = some first ∧
      mid.getLast?.bind f = some last ∧ (∀ n ∈ front.filterMap f, n < first) ∧
      (∀ n ∈ mid.filterMap f, first ≤ n ∧ n ≤ last) ∧ (∀ n ∈ back.filterMap f, last < n) ∧
      as.findIdx? (fun a => decide (f a = some first)) = some front.length ∧
      rposition (fun a => decide (f a = some last)) as = some (front.length + mid.length - 1) := by
  obtain ⟨front, a, rest, split, own, before, after⟩ := ascending.split held
  have found := (ascending.findIdx? split own).1
  rcases le.eq_or_lt with rfl | lt
  · refine ⟨front, [a], rest, by simp [split], own, own, before, ?_, after, found,
      (ascending.findIdx? split own).2⟩
    intro n mem
    rw [List.filterMap_cons, own] at mem
    rw [List.mem_singleton.mp mem]
    exact ⟨le, le⟩
  · have inside : last ∈ rest.filterMap f := by
      rw [split, List.filterMap_append, List.filterMap_cons, own] at held'
      rcases List.mem_append.mp held' with mem | mem
      · exact absurd (before last mem) (not_lt_of_gt lt)
      · exact (List.mem_cons.mp mem).resolve_left fun same => lt_irrefl last (same ▸ lt)
    have ascending' : Ascending f rest := by
      rw [Ascending, split, List.filterMap_append, List.filterMap_cons, own, List.pairwise_append] at ascending
      exact (List.pairwise_cons.mp ascending.2.1).2
    obtain ⟨mid, b, back, split', own', before', after'⟩ := ascending'.split inside
    have whole : as = (front ++ a :: mid) ++ b :: back := by simp [split, split']
    refine ⟨front, a :: (mid ++ [b]), back, by simp [split, split'], own, ?_, before, ?_, after', found, ?_⟩
    · rw [← List.cons_append, List.getLast?_concat]
      exact own'
    · intro n mem
      rw [List.filterMap_cons, own, List.filterMap_append, List.filterMap_cons, own'] at mem
      rcases List.mem_cons.mp mem with rfl | mem
      · exact ⟨le_refl _, le⟩
      · rcases List.mem_append.mp mem with mem | mem
        · refine ⟨le_of_lt (after n ?_), le_of_lt (before' n mem)⟩
          rw [split', List.filterMap_append]
          exact List.mem_append_left _ mem
        · rw [List.mem_singleton.mp mem]
          exact ⟨le, le_refl _⟩
    · rw [(ascending.findIdx? whole own').2]
      simp

/-- Numbers in a range are all of it if there are as many. -/
theorem forall_mem_iff_length {numbers : List Nat} (ascending : numbers.Pairwise (· < ·))
    {first last : Nat} (inside : ∀ n ∈ numbers, first ≤ n ∧ n ≤ last) :
    numbers.length = last + 1 - first ↔ ∀ n, first ≤ n → n ≤ last → n ∈ numbers := by
  have once : numbers.Nodup := ascending.imp fun lt => Nat.ne_of_lt lt
  have sub : numbers.toFinset ⊆ Finset.Icc first last := fun n mem =>
    Finset.mem_Icc.mpr (inside n (List.mem_toFinset.mp mem))
  rw [← List.toFinset_card_of_nodup once, ← Nat.card_Icc]
  constructor
  · intro size n low high
    rw [← List.mem_toFinset, Finset.eq_of_subset_of_card_le sub size.ge]
    exact Finset.mem_Icc.mpr ⟨low, high⟩
  · intro all
    refine congrArg Finset.card (Finset.Subset.antisymm sub fun n mem => ?_)
    obtain ⟨low, high⟩ := Finset.mem_Icc.mp mem
    exact List.mem_toFinset.mpr (all n low high)

/-- Growing numbers that fill a range are its numbers in order. -/
theorem eq_range' {numbers : List Nat} (ascending : numbers.Pairwise (· < ·)) {first last : Nat}
    (same : ∀ n, n ∈ numbers ↔ first ≤ n ∧ n ≤ last) :
    numbers = List.range' first (last + 1 - first) := by
  refine ascending.eq_of_mem_iff List.pairwise_lt_range' fun n => ?_
  rw [same, List.mem_range'_1]
  omega

end ProgressiveReviewer.Library
