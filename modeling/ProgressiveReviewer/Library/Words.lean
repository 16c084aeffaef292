import Mathlib.Algebra.Ring.Nat
import Mathlib.Order.Basic
import Mathlib.Order.Lattice

/-! Numbers held in a 64-bit machine word. -/

namespace ProgressiveReviewer.Library.Words

/-- The largest number that a word holds. -/
def maxWord : Nat := 2 ^ 64 - 1

/-- A sum, or nothing when it leaves the word. -/
def add (a b : Nat) : Option Nat := if a + b ≤ maxWord then some (a + b) else none

/-- A difference, or nothing when it goes below zero. -/
def sub (a b : Nat) : Option Nat := if b ≤ a then some (a - b) else none

def saturatingAdd (a b : Nat) : Nat := min (a + b) maxWord

def saturatingAddSigned (a : Nat) (delta : Int) : Nat := min (a + delta).toNat maxWord

theorem add_eq {a b : Nat} (fits : a + b ≤ maxWord) : add a b = some (a + b) := if_pos fits

theorem sub_eq {a b : Nat} (le : b ≤ a) : sub a b = some (a - b) := if_pos le

theorem lt_saturatingAdd {a b c : Nat} (bound : a < maxWord) : a < saturatingAdd b c ↔ a < b + c := by
  rw [saturatingAdd, Nat.lt_min, and_iff_left bound]

end ProgressiveReviewer.Library.Words
