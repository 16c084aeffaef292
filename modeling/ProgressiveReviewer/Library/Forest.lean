import Mathlib.Data.List.Basic

/-! Forests of labelled nodes and leaves, and the walk that opens and closes each node. -/

namespace ProgressiveReviewer.Library

/-- A list of trees: the first tree, and those next to it. -/
inductive Forest (δ φ : Type) where
  | nil
  | leaf (value : φ) (rest : Forest δ φ)
  | node (label : δ) (children rest : Forest δ φ)

namespace Forest

variable {δ φ : Type}

/-- How many nodes and leaves it has. -/
def size : Forest δ φ → Nat
  | nil => 0
  | leaf _ rest => rest.size + 1
  | node _ children rest => children.size + rest.size + 1

/-- The events of a walk through a forest: each node opens, then what it holds comes, and it
closes. -/
def events {ε : Type} (opens closes : δ → ε) (value : φ → ε) : Forest δ φ → List ε
  | nil => []
  | leaf item rest => value item :: rest.events opens closes value
  | node label children rest => opens label :: (children.events opens closes value ++
      closes label :: rest.events opens closes value)

/-- One forest next to another. -/
def append : Forest δ φ → Forest δ φ → Forest δ φ
  | nil, other => other
  | leaf item rest, other => leaf item (rest.append other)
  | node label children rest, other => node label children (rest.append other)

theorem events_append {ε : Type} (opens closes : δ → ε) (value : φ → ε) (forest other : Forest δ φ) :
    (forest.append other).events opens closes value =
      forest.events opens closes value ++ other.events opens closes value := by
  induction forest with
  | nil => rfl
  | leaf item rest ih => simp [append, events, ih]
  | node label children rest _ ih => simp [append, events, ih]

end Forest

end ProgressiveReviewer.Library
