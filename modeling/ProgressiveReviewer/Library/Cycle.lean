import Mathlib.Data.List.Nodup
import Mathlib.Data.Nat.ModEq
import Mathlib.Order.Basic

/-! Going round a list in ascending order, one item after another. -/

namespace ProgressiveReviewer.Library

variable {α : Type*} [LinearOrder α]

/-- The first item after a reference, or the first one when none is. -/
def firstAfter (items : List α) (reference : α) : Option α :=
  (items.find? fun item => reference < item).or items.head?

/-- The last item before a reference, or the last one when none is. -/
def firstBefore (items : List α) (reference : α) : Option α :=
  (items.reverse.find? fun item => item < reference).or items.getLast?

theorem find?_take_drop {β : Type*} (test : β → Bool) (count : Nat) (items : List β) :
    items.find? test = ((items.take count).find? test).or ((items.drop count).find? test) := by
  rw [← List.find?_append, List.take_append_drop]

theorem find?_reverse_take_drop {β : Type*} (test : β → Bool) (count : Nat) (items : List β) :
    items.reverse.find? test =
      ((items.drop count).reverse.find? test).or ((items.take count).reverse.find? test) := by
  rw [← List.find?_append, ← List.reverse_append, List.take_append_drop]

section Ascending

variable {items : List α} (ascending : items.Pairwise (· < ·)) {index : Nat}
  (held : index < items.length)

include ascending held

theorem not_after_of_mem_take {item : α} (mem : item ∈ items.take (index + 1)) :
    ¬items[index] < item := by
  obtain ⟨place, before, rfl⟩ := List.mem_take_iff_getElem.mp mem
  rcases Nat.lt_or_ge place index with earlier | later
  · exact (List.pairwise_iff_getElem.mp ascending place index _ _ earlier).not_gt
  · have same : place = index := by omega
    subst same
    exact lt_irrefl _

theorem not_before_of_mem_drop {item : α} (mem : item ∈ items.drop index) :
    ¬item < items[index] := by
  obtain ⟨place, bound, rfl⟩ := List.mem_drop_iff_getElem.mp mem
  rcases Nat.eq_zero_or_pos place with rfl | later
  · exact lt_irrefl _
  · exact (List.pairwise_iff_getElem.mp ascending index (index + place) _ _
      (Nat.lt_add_of_pos_right later)).not_gt

/-- The item after an item is the next one, and the first one after the last. -/
theorem firstAfter_getElem :
    firstAfter items items[index] = items[(index + 1) % items.length]? := by
  have front : (items.take (index + 1)).find? (fun item => items[index] < item) = none := by
    rw [List.find?_eq_none]
    exact fun item mem => by simpa using not_after_of_mem_take ascending held mem
  rw [firstAfter, find?_take_drop _ (index + 1), front, Option.none_or]
  rcases Nat.lt_or_ge (index + 1) items.length with next | last
  · have after := List.pairwise_iff_getElem.mp ascending index (index + 1) held next
      (Nat.lt_succ_self _)
    rw [List.drop_eq_getElem_cons next, List.find?_cons_of_pos (by simpa using after),
      Nat.mod_eq_of_lt next, List.getElem?_eq_getElem next, Option.some_or]
  · have round : (index + 1) % items.length = 0 := by
      rw [show index + 1 = items.length by omega, Nat.mod_self]
    rw [List.drop_of_length_le last, List.find?_nil, Option.none_or, round, List.head?_eq_getElem?]

/-- The item before an item is the previous one, and the last one before the first. -/
theorem firstBefore_getElem :
    firstBefore items items[index] = items[(index + items.length - 1) % items.length]? := by
  have front : (items.drop index).reverse.find? (fun item => item < items[index]) = none := by
    rw [List.find?_eq_none]
    exact fun item mem => by
      simpa using not_before_of_mem_drop ascending held (List.mem_reverse.mp mem)
  rw [firstBefore, find?_reverse_take_drop _ index, front, Option.none_or]
  cases index with
  | zero =>
    have round : (0 + items.length - 1) % items.length = items.length - 1 := by
      rw [Nat.zero_add]
      exact Nat.mod_eq_of_lt (by omega)
    rw [List.take_zero, List.reverse_nil, List.find?_nil, Option.none_or, round,
      List.getLast?_eq_getElem?]
  | succ index =>
    have earlier : index < items.length := by omega
    have before := List.pairwise_iff_getElem.mp ascending index (index + 1) earlier held
      (Nat.lt_succ_self _)
    have round : (index + 1 + items.length - 1) % items.length = index := by
      rw [show index + 1 + items.length - 1 = index + items.length by omega, Nat.add_mod_right,
        Nat.mod_eq_of_lt earlier]
    rw [← List.take_append_getElem earlier, List.reverse_append, List.reverse_singleton,
      List.singleton_append, List.find?_cons_of_pos (by simpa using before), round,
      List.getElem?_eq_getElem earlier, Option.some_or]

end Ascending

/-- The item reached from another after a number of steps. -/
def around (items : List α) (start : α) : Nat → Option α
  | 0 => some start
  | steps + 1 => (around items start steps).bind (firstAfter items)

section Round

variable {items : List α} (ascending : items.Pairwise (· < ·)) {index : Nat}
  (held : index < items.length)

include ascending held

theorem around_getElem (steps : Nat) :
    around items items[index] steps = items[(index + steps) % items.length]? := by
  induction steps with
  | zero => rw [around, Nat.add_zero, Nat.mod_eq_of_lt held, List.getElem?_eq_getElem held]
  | succ steps ih =>
    have inside : (index + steps) % items.length < items.length :=
      Nat.mod_lt _ (Nat.zero_lt_of_lt held)
    rw [around, ih, List.getElem?_eq_getElem inside, Option.bind_some,
      firstAfter_getElem ascending inside, Nat.mod_add_mod, Nat.add_assoc]

/-- As many steps as there are items come back. -/
theorem around_length : around items items[index] items.length = some items[index] := by
  rw [around_getElem ascending held, Nat.add_mod_right, Nat.mod_eq_of_lt held,
    List.getElem?_eq_getElem held]

/-- On the way each item is reached exactly once. -/
theorem around_visits {item : α} (mem : item ∈ items) :
    ∃! steps, steps < items.length ∧ around items items[index] (steps + 1) = some item := by
  obtain ⟨place, bound, rfl⟩ := List.getElem_of_mem mem
  have nodup : items.Nodup := ascending.imp fun lt => ne_of_lt lt
  have pos := Nat.zero_lt_of_lt held
  have reaches (steps : Nat) : around items items[index] (steps + 1) = some items[place] ↔
      (index + (steps + 1)) % items.length = place := by
    rw [around_getElem ascending held, List.getElem?_eq_getElem (Nat.mod_lt _ pos),
      Option.some.injEq]
    exact List.Nodup.getElem_inj_iff nodup
  refine ⟨(place + items.length - (index + 1)) % items.length, ⟨Nat.mod_lt _ pos, ?_⟩, ?_⟩
  · rw [reaches, ← Nat.add_assoc, Nat.add_right_comm, Nat.add_mod_mod,
      show index + 1 + (place + items.length - (index + 1)) = place + items.length by omega,
      Nat.add_mod_right, Nat.mod_eq_of_lt bound]
  · rintro steps ⟨few, reached⟩
    rw [reaches] at reached
    have same : index + (steps + 1) ≡
        index + ((place + items.length - (index + 1)) % items.length + 1) [MOD items.length] := by
      rw [Nat.ModEq, reached, ← Nat.add_assoc, Nat.add_right_comm, Nat.add_mod_mod,
        show index + 1 + (place + items.length - (index + 1)) = place + items.length by omega,
        Nat.add_mod_right, Nat.mod_eq_of_lt bound]
    have close := (Nat.ModEq.add_right_cancel' 1 (Nat.ModEq.add_left_cancel' index same))
    rwa [Nat.ModEq, Nat.mod_mod, Nat.mod_eq_of_lt few] at close

/-- A step back undoes a step on. -/
theorem firstBefore_firstAfter : (firstAfter items items[index]).bind (firstBefore items) =
    some items[index] := by
  have pos := Nat.zero_lt_of_lt held
  have inside : (index + 1) % items.length < items.length := Nat.mod_lt _ pos
  rw [firstAfter_getElem ascending held, List.getElem?_eq_getElem inside, Option.bind_some,
    firstBefore_getElem ascending inside, Nat.add_sub_assoc pos, Nat.mod_add_mod,
    show index + 1 + (items.length - 1) = index + items.length by omega, Nat.add_mod_right,
    Nat.mod_eq_of_lt held, List.getElem?_eq_getElem held]

end Round

end ProgressiveReviewer.Library
