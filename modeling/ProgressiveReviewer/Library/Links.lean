import Mathlib.Logic.Relation

/-! Identities that name others: links that lead to known identities only, and to no
identity from itself. -/

namespace ProgressiveReviewer.Library

open Relation

variable {κ : Type*} {links : κ → Option (List κ)} {a b c : κ}

/-- One identity names another. -/
def Linked (links : κ → Option (List κ)) (a b : κ) : Prop := ∃ named, links a = some named ∧ b ∈ named

/-- Every identity that is named is known, and none leads back to itself. -/
structure Grounded (links : κ → Option (List κ)) : Prop where
  closed : ∀ a b, Linked links a b → (links b).isSome = true
  acyclic : ∀ a, ¬TransGen (Linked links) a a

theorem reaches_closed {held : κ → Prop} (closed : ∀ a, held a → ∀ b, Linked links a b → held b)
    (start : held a) (path : ReflTransGen (Linked links) a b) : held b := by
  induction path with
  | refl => exact start
  | tail _ link ih => exact closed _ ih _ link

theorem Grounded.reaches (grounded : Grounded links) (link : Linked links a b)
    (path : ReflTransGen (Linked links) b c) : (links c).isSome = true ∧ c ≠ a := by
  have round : TransGen (Linked links) a c := .head' link path
  refine ⟨?_, fun back => grounded.acyclic a (back ▸ round)⟩
  rcases path.cases_tail with rfl | ⟨before, _, last⟩
  · exact grounded.closed a c link
  · exact grounded.closed before c last

/-- Links are grounded when each identity's own search ends well. -/
theorem grounded_iff : Grounded links ↔ ∀ a named, links a = some named → ∀ b ∈ named, ∀ c,
    ReflTransGen (Linked links) b c → (links c).isSome = true ∧ c ≠ a := by
  constructor
  · intro grounded a named known b mem c path
    exact grounded.reaches ⟨named, known, mem⟩ path
  · intro searched
    constructor
    · rintro a b ⟨named, known, mem⟩
      exact (searched a named known b mem b .refl).1
    · intro a cycle
      obtain ⟨b, ⟨named, known, mem⟩, path⟩ := TransGen.head'_iff.mp cycle
      exact (searched a named known b mem a path).2 rfl

theorem grounded_none : Grounded fun _ : κ => (none : Option (List κ)) :=
  grounded_iff.mpr fun _ _ absent => nomatch absent

end ProgressiveReviewer.Library
