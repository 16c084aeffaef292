import Mathlib.Algebra.Order.Ring.Nat
import Mathlib.Data.List.Basic
import Mathlib.Data.Nat.Digits.Defs
import Mathlib.Tactic.SplitIfs

/-! Text as fields that a mark closes or parts, and counts in decimal digits. -/

namespace ProgressiveReviewer.Library

section Fields

variable {α : Type*} [DecidableEq α] {mark : α}

/-- Fields, each closed by a mark. -/
def closeAll (mark : α) (fields : List (List α)) : List α := fields.flatMap (· ++ [mark])

theorem splitOn_append {field rest : List α} (clean : mark ∉ field) :
    (field ++ mark :: rest).splitOn mark = field :: rest.splitOn mark := by
  induction field with
  | nil => simp [List.splitOn, List.splitOnP_cons_eq_if_modifyHead]
  | cons first field ih =>
    obtain ⟨differs, clean⟩ := not_or.mp (mt List.mem_cons.mpr clean)
    rw [List.cons_append, List.splitOn, List.splitOnP_cons_eq_if_modifyHead,
      if_neg (by simpa using Ne.symm differs)]
    exact congrArg (List.modifyHead (first :: ·)) (ih clean)

/-- Splitting at the mark gives the fields back, and nothing after the last. -/
theorem splitOn_closeAll {fields : List (List α)} (clean : ∀ field ∈ fields, mark ∉ field) :
    (closeAll mark fields).splitOn mark = fields ++ [[]] := by
  induction fields with
  | nil => rfl
  | cons field rest ih =>
    obtain ⟨first, clean⟩ := List.forall_mem_cons.mp clean
    rw [closeAll, List.flatMap_cons, List.append_assoc, List.singleton_append, splitOn_append first]
    exact congrArg (field :: ·) (ih clean)

/-- The text before the first mark and the text after it. -/
def cutAt (mark : α) (text : List α) : Option (List α × List α) :=
  match text.dropWhile (· ≠ mark) with
  | [] => none
  | _ :: rest => some (text.takeWhile (· ≠ mark), rest)

theorem cutAt_append {field rest : List α} (clean : mark ∉ field) :
    cutAt mark (field ++ mark :: rest) = some (field, rest) := by
  have passes : ∀ a ∈ field, decide (a ≠ mark) = true := fun a mem =>
    decide_eq_true fun same => clean (same ▸ mem)
  rw [cutAt, List.dropWhile_append_of_pos passes, List.takeWhile_append_of_pos passes]
  simp

end Fields

/-- The decimal digits of a number, as bytes of ASCII. -/
def decimal (n : Nat) : List UInt8 :=
  if n = 0 then [48] else (Nat.digits 10 n).reverse.map fun digit => UInt8.ofNat (48 + digit)

/-- The number that decimal digits write. -/
def ofDecimal (digits : List UInt8) : Nat :=
  digits.foldl (fun value digit => value * 10 + (digit.toNat - 48)) 0

def isDigit (byte : UInt8) : Bool := 48 ≤ byte && byte ≤ 57

theorem digit_byte {digit : Nat} (small : digit < 10) :
    (UInt8.ofNat (48 + digit)).toNat = 48 + digit ∧ isDigit (UInt8.ofNat (48 + digit)) = true := by
  have size : 48 + digit < 256 := by omega
  have value : (UInt8.ofNat (48 + digit)).toNat = 48 + digit := by simp [Nat.mod_eq_of_lt size]
  refine ⟨value, ?_⟩
  simp only [isDigit, Bool.and_eq_true, decide_eq_true_eq, UInt8.le_iff_toNat_le, value]
  exact ⟨Nat.le_add_right _ _, Nat.add_le_add_left (Nat.le_of_lt_succ small) 48⟩

theorem isDigit_decimal {n : Nat} : ∀ byte ∈ decimal n, isDigit byte = true := by
  intro byte mem
  unfold decimal at mem
  split_ifs at mem with zero
  · obtain rfl := List.mem_singleton.mp mem
    decide
  · obtain ⟨digit, held, rfl⟩ := List.mem_map.mp mem
    exact (digit_byte (Nat.digits_lt_base (by decide) (List.mem_reverse.mp held))).2

theorem decimal_ne_nil {n : Nat} : decimal n ≠ [] := by
  unfold decimal
  split_ifs with zero
  · exact List.cons_ne_nil _ _
  · simpa using Nat.digits_ne_nil_iff_ne_zero.mpr zero

theorem ofDecimal_decimal {n : Nat} : ofDecimal (decimal n) = n := by
  unfold decimal
  split_ifs with zero
  · rw [zero]
    rfl
  · have fold : ∀ digits : List Nat, (∀ digit ∈ digits, digit < 10) →
        ofDecimal (digits.reverse.map fun digit => UInt8.ofNat (48 + digit)) =
          Nat.ofDigits 10 digits := by
      intro digits small
      induction digits with
      | nil => rfl
      | cons digit digits ih =>
        obtain ⟨first, rest⟩ := List.forall_mem_cons.mp small
        have ih := ih rest
        simp only [ofDecimal, List.reverse_cons, List.map_append, List.map_singleton,
          List.foldl_concat] at ih ⊢
        rw [ih, (digit_byte first).1, Nat.ofDigits_cons]
        omega
    rw [fold _ fun digit held => Nat.digits_lt_base (by decide) held, Nat.ofDigits_digits]

end ProgressiveReviewer.Library
