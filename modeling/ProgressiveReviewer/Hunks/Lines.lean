import ProgressiveReviewer.Hunks.Review
import Mathlib.Data.Finset.Basic

/-! Accepting and reopening individual changed lines (`review-hunks/src/lines.rs`).
Hunks are only a view of the reviewed version, so a hunk splits where a selection
ends. -/

namespace ProgressiveReviewer.Hunks

open Library Library.Extent
open Std (TreeMap)

/-- Changed lines picked from a file's diff from the base: base lines it removes and
current lines it adds. -/
structure LineSelection where
  removed : Finset Nat
  added : Finset Nat
  deriving DecidableEq

/-- The reviewed lines the current file still shows, with who reviewed each. -/
structure ReviewedLines where
  removed : TreeMap Nat MarkAuthor
  added : TreeMap Nat MarkAuthor

def LineSelection.isEmpty (selection : LineSelection) : Bool :=
  decide (selection.removed = ∅) && decide (selection.added = ∅)

/-- The lines of `self` that `other` does not have. -/
def LineSelection.difference (self other : LineSelection) : LineSelection :=
  ⟨self.removed \ other.removed, self.added \ other.added⟩

/-- The lines, without their authors. -/
def ReviewedLines.selection (lines : ReviewedLines) : LineSelection :=
  ⟨lines.removed.keys.toFinset, lines.added.keys.toFinset⟩

/-- The picked lines of one change. `removed` and `added` follow the change's
before and after lines. -/
structure Pick where
  removed : List Bool
  added : List Bool
  deriving DecidableEq, Repr

namespace Pick

def any (pick : Pick) : Bool := (pick.removed ++ pick.added).any id

def every (change : Change) : Pick :=
  ⟨List.replicate change.before.size true, List.replicate change.after.size true⟩

def none (change : Change) : Pick :=
  ⟨List.replicate change.before.size false, List.replicate change.after.size false⟩

end Pick

/-- The positions of each hunk's changes. -/
def hunksFrom : Nat → List (List Change) → List Extent
  | _, [] => []
  | start, group :: groups =>
    ⟨start, start + group.length⟩ :: hunksFrom (start + group.length) groups

def hunks (changes : List Change) : List Extent := hunksFrom 0 (hunkGroups changes)

/-- The picks of one hunk, with nothing picked elsewhere. -/
def alone (changes : List Change) (picks : List Pick) (hunk : Extent) : List Pick :=
  (changes.zip picks).zipIdx.map fun entry =>
    if hunk.holds entry.2 then entry.1.2 else Pick.none entry.1.1

/-- Pick every line of one hunk. -/
def widen (changes : List Change) (picks : List Pick) (hunk : Extent) : List Pick :=
  hunk.positions.foldl
    (fun picks index =>
      match changes[index]? with
      | some change => picks.set index (Pick.every change)
      | none => picks) picks

/-- Settle which lines to change. Each hunk whose picked lines would not come
out exactly as picked (the new diff can pair up equal lines differently)
changes whole instead. `none` when nothing is picked. -/
def settle (changes : List Change) (picks : List Pick) («matches» : List Pick → Bool) :
    Option (List Pick) :=
  if !picks.any Pick.any then none
  else
    let touched := (hunks changes).filter fun hunk => (hunk.cut picks).any Pick.any
    let picks := touched.foldl
      (fun picks hunk =>
        if «matches» (alone changes picks hunk) then picks else widen changes picks hunk) picks
    if «matches» picks then some picks else some (touched.foldl (widen changes) picks)

/-- The open lines of a reviewed version: the base lines its open diff
removes and the current lines it adds. -/
def openLines (d : Differ) (base reviewed current : Bytes) : LineSelection :=
  let reviewedChanges := d.changes base reviewed
  let changes := d.changes reviewed current
  { removed := ((changes.flatMap fun change => change.before.positions).filterMap
      (beforeLine reviewedChanges)).toFinset
    added := (changes.flatMap fun change => change.after.positions).toFinset }

/-- The reviewed lines of a reviewed version that the current file still
shows: the base lines it removes and, numbered like the current file,
the lines it adds. -/
def reviewedLinesOf (d : Differ) (base reviewed current : Bytes) : LineSelection :=
  let «open» := d.changes reviewed current
  let changes := d.changes base reviewed
  { removed := (changes.flatMap fun change => change.before.positions).toFinset
    added := ((changes.flatMap fun change => change.after.positions).filterMap
      (afterLine «open»)).toFinset }

namespace HunkReview

variable (d : Differ) (self : HunkReview)

/-- The reviewed lines the current file still shows, with their authors. -/
def reviewedLines : ReviewedLines :=
  let «open» := d.changes self.reviewed self.current
  let changes := d.changes self.base self.reviewed
  { removed := (changes.flatMap fun change => change.before.positions).foldl
      (fun removed line => removed.insert line (self.attribution.removedBy line)) ∅
    added := (changes.flatMap fun change => change.after.positions).foldl
      (fun added line =>
        match afterLine «open» line with
        | some current => added.insert current (self.attribution.addedBy line)
        | none => added) ∅ }

/-! Accepting picked open lines into the reviewed version: each change keeps its
unpicked reviewed lines, followed by its picked current lines. -/

/-- Write one open change. -/
def acceptChange (author : MarkAuthor) (rebuild : Rebuild) (change : Change) (pick : Pick) :
    Option Rebuild := do
  let reviewed := Lines.new self.reviewed
  let current := Lines.new self.current
  let rebuild ← (change.before.positions.zip pick.removed).foldlM
    (fun rebuild entry =>
      if !entry.2 then rebuild.keep reviewed ⟨entry.1, entry.1 + 1⟩ self.attribution
      else match beforeLine (d.changes self.base self.reviewed) entry.1 with
        | some base => some (rebuild.remove base author)
        | none => some rebuild) rebuild
  (change.after.positions.zip pick.added).foldlM
    (fun rebuild entry =>
      if entry.2 then (current.line entry.1).map fun line => rebuild.push line author
      else some rebuild) rebuild

def acceptFrom (author : MarkAuthor) : Rebuild → Nat → List (Change × Pick) → Option Rebuild
  | rebuild, position, [] =>
    let reviewed := Lines.new self.reviewed
    rebuild.keep reviewed ⟨position, reviewed.length⟩ self.attribution
  | rebuild, position, (change, pick) :: rest => do
    let rebuild ← rebuild.keep (Lines.new self.reviewed) ⟨position, change.before.start⟩
      self.attribution
    let rebuild ← self.acceptChange d author rebuild change pick
    acceptFrom author rebuild change.before.stop rest

def acceptBuild (author : MarkAuthor) (picks : List Pick) : Option Reviewed :=
  let «open» := d.changes self.reviewed self.current
  (self.acceptFrom d author (Rebuild.on self.attribution) 0 («open».zip picks)).map
    fun rebuild => rebuild.finish d self.base

/-- Whether accepting `picks` leaves open exactly the lines it did not pick. -/
def acceptMatches (author : MarkAuthor) (picks : List Pick) : Bool :=
  let reviewedChanges := d.changes self.base self.reviewed
  let entries := (d.changes self.reviewed self.current).zip picks
  let expected : LineSelection :=
    { removed := (entries.flatMap fun entry =>
        (entry.1.before.positions.zip entry.2.removed).filterMap fun line =>
          if line.2 then none else beforeLine reviewedChanges line.1).toFinset
      added := (entries.flatMap fun entry =>
        (entry.1.after.positions.zip entry.2.added).filterMap fun line =>
          if line.2 then none else some line.1).toFinset }
  (self.acceptBuild d author picks).any fun rebuilt =>
    openLines d self.base rebuilt.text self.current = expected

/-- The picks that a selection names. Rewritten reviewed lines have no base number:
they leave with a fully picked change. -/
def acceptPicks (selection : LineSelection) : List Pick :=
  (d.changes self.reviewed self.current).map fun change =>
    let bases := change.before.positions.map (beforeLine (d.changes self.base self.reviewed))
    let pick : Pick :=
      { removed := bases.map fun base => base.any (· ∈ selection.removed)
        added := change.after.positions.map (· ∈ selection.added) }
    let addressed := ((bases.zip pick.removed).filterMap fun entry =>
      if entry.1.isSome then some entry.2 else none) ++ pick.added
    if !addressed.isEmpty && addressed.all id then Pick.every change else pick

/-- Accept the open lines `selection` names; `none` when it names none.
An accepted change keeps its unpicked lines open, so its hunk splits. -/
def acceptLines (selection : LineSelection) (author : MarkAuthor) : Option ReviewedVersion := do
  let picks ← settle (d.changes self.reviewed self.current) (self.acceptPicks d selection)
    (self.acceptMatches d author)
  let rebuilt ← self.acceptBuild d author picks
  some (self.version rebuilt)

/-! Reopening picked reviewed lines: each reviewed change takes back its picked base
lines, followed by its unpicked added lines. -/

/-- Write one reviewed change. -/
def reopenChange (rebuild : Rebuild) (change : Change) (pick : Pick) : Option Rebuild := do
  let reviewed := Lines.new self.reviewed
  let base := Lines.new self.base
  let rebuild ← (change.before.positions.zip pick.removed).foldlM
    (fun rebuild entry =>
      if entry.2 then (base.line entry.1).map fun line => rebuild.push line self.attribution.default
      else some rebuild) rebuild
  (change.after.positions.zip pick.added).foldlM
    (fun rebuild entry =>
      if !entry.2 then rebuild.keep reviewed ⟨entry.1, entry.1 + 1⟩ self.attribution
      else some rebuild) rebuild

def reopenFrom : Rebuild → Nat → List (Change × Pick) → Option Rebuild
  | rebuild, position, [] =>
    let reviewed := Lines.new self.reviewed
    rebuild.keep reviewed ⟨position, reviewed.length⟩ self.attribution
  | rebuild, position, (change, pick) :: rest => do
    let rebuild ← rebuild.keep (Lines.new self.reviewed) ⟨position, change.after.start⟩
      self.attribution
    let rebuild ← self.reopenChange rebuild change pick
    reopenFrom rebuild change.after.stop rest

def reopenBuild (picks : List Pick) : Option Reviewed :=
  let reviewedChanges := d.changes self.base self.reviewed
  (self.reopenFrom (Rebuild.on self.attribution) 0 (reviewedChanges.zip picks)).map
    fun rebuild => rebuild.finish d self.base

/-- Whether reopening `picks` keeps reviewed exactly the lines it did not pick. -/
def reopenMatches (picks : List Pick) : Bool :=
  let «open» := d.changes self.reviewed self.current
  let entries := (d.changes self.base self.reviewed).zip picks
  let expected : LineSelection :=
    { removed := (entries.flatMap fun entry =>
        (entry.1.before.positions.zip entry.2.removed).filterMap fun line =>
          if line.2 then none else some line.1).toFinset
      added := (entries.flatMap fun entry =>
        (entry.1.after.positions.zip entry.2.added).filterMap fun line =>
          if line.2 then none else afterLine «open» line.1).toFinset }
  (self.reopenBuild d picks).any fun rebuilt =>
    reviewedLinesOf d self.base rebuilt.text self.current = expected

def reopenPicks (selection : LineSelection) : List Pick :=
  (d.changes self.base self.reviewed).map fun change =>
    { removed := change.before.positions.map (· ∈ selection.removed)
      added := change.after.positions.map fun line =>
        (afterLine (d.changes self.reviewed self.current) line).any (· ∈ selection.added) }

/-- Reopen the reviewed lines `selection` names; `none` when it names
none. Reviewed lines the current file rewrote are open already. -/
def reopenLines (selection : LineSelection) : Option ReviewedVersion := do
  let picks ← settle (d.changes self.base self.reviewed) (self.reopenPicks d selection)
    (self.reopenMatches d)
  let rebuilt ← self.reopenBuild d picks
  some (self.version rebuilt)

end HunkReview

end ProgressiveReviewer.Hunks
