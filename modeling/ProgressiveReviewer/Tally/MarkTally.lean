import Mathlib.Algebra.Ring.Nat
import ProgressiveReviewer.Explore.Named
import ProgressiveReviewer.Explore.Round
import ProgressiveReviewer.Hunks.Rows

/-! How much of the change under review the review marks cover, and what an answer to the question
that waits adds (`review-explore-tally/src/lib.rs`, `round.rs`, `tally.rs`, `marks.rs`). -/

namespace ProgressiveReviewer.Tallies

open Hunks Marks Explore

/-- Who marked lines, in the groups of the meter. -/
inductive Marker where
  | answer
  | jev
  | notRelevant
  | byHand
  | otherRound
  deriving DecidableEq, Repr

/-- Marked lines by who marked them. -/
structure MarkedLines where
  answers : Nat
  jev : Nat
  notRelevant : Nat
  byHand : Nat
  otherRounds : Nat
  deriving DecidableEq, Repr

namespace MarkedLines

def zero : MarkedLines := ⟨0, 0, 0, 0, 0⟩

variable (lines : MarkedLines)

def total : Nat := lines.answers + lines.jev + lines.notRelevant + lines.byHand + lines.otherRounds

def count : Marker → MarkedLines
  | .answer => { lines with answers := lines.answers + 1 }
  | .jev => { lines with jev := lines.jev + 1 }
  | .notRelevant => { lines with notRelevant := lines.notRelevant + 1 }
  | .byHand => { lines with byHand := lines.byHand + 1 }
  | .otherRound => { lines with otherRounds := lines.otherRounds + 1 }

def add (other : MarkedLines) : MarkedLines where
  answers := lines.answers + other.answers
  jev := lines.jev + other.jev
  notRelevant := lines.notRelevant + other.notRelevant
  byHand := lines.byHand + other.byHand
  otherRounds := lines.otherRounds + other.otherRounds

end MarkedLines

/-- The open lines that an answer marks. -/
structure PendingLines where
  reviewed : Nat
  notRelevant : Nat
  deriving DecidableEq, Repr

namespace PendingLines

def zero : PendingLines := ⟨0, 0⟩

def total (lines : PendingLines) : Nat := lines.reviewed + lines.notRelevant

def add (lines other : PendingLines) : PendingLines :=
  ⟨lines.reviewed + other.reviewed, lines.notRelevant + other.notRelevant⟩

end PendingLines

/-- A share of changed lines, with its whole percent. -/
structure Share where
  marked : Nat
  changed : Nat
  percent : Nat
  deriving DecidableEq, Repr

def Share.of (marked changed : Nat) : Share :=
  let lines (count : Nat) := min count (2 ^ 32 - 1)
  ⟨marked, changed, LineCount.percent ⟨lines marked, lines changed⟩⟩

/-- How the changed lines of a file, or of the whole change, stand. -/
structure Tally where
  changed : DiffStatistics
  marked : MarkedLines
  pending : PendingLines
  reopened : Nat
  left : Nat
  share : Share
  deriving DecidableEq, Repr

namespace Tally

def new (changed : DiffStatistics) (marked : MarkedLines) (pending : PendingLines)
    (reopened : Nat) : Tally :=
  let share := Share.of marked.total changed.lines
  { changed, marked, pending, reopened, share
    left := changed.lines - (share.marked + pending.total) }

/-- Nothing marked of the changed lines. -/
def unmarked (changed : DiffStatistics) : Tally := new changed .zero .zero 0

def sum (tallies : List Tally) : Tally :=
  new ⟨(tallies.map (·.changed.linesAdded)).sum, (tallies.map (·.changed.linesRemoved)).sum⟩
    ((tallies.map (·.marked)).foldl .add .zero) ((tallies.map (·.pending)).foldl .add .zero)
    (tallies.map (·.reopened)).sum

end Tally

/-- What an answer does to the share of the whole change. -/
structure Gain where
  pending : PendingLines
  reopened : Nat
  before : Share
  after : Share
  deriving DecidableEq, Repr

def Gain.new (pending : PendingLines) (reopened : Nat) (before : Share) : Gain :=
  let marked := before.marked + pending.total - reopened
  ⟨pending, reopened, before, Share.of (min marked before.changed) before.changed⟩

def Gain.of (change : Tally) : Gain := new change.pending change.reopened change.share

/-- What an answer does to a file that it marks or reopens whole. -/
inductive WholeChange where
  | reviewed
  | notRelevant
  | reopened
  deriving DecidableEq, Repr

/-- A file without lines to mark one by one. -/
structure WholeFile where
  markedBy : Option Marker
  answering : Option WholeChange
  deriving DecidableEq, Repr

/-- The review marks of one changed file. -/
structure FileTally where
  path : String
  tally : Tally
  whole : Option WholeFile
  /-- Whether the question that waits cites the file. -/
  cited : Bool
  deriving DecidableEq, Repr

/-- The review marks of the change under review. -/
structure MarkTally where
  change : Tally
  files : List FileTally
  gain : Option Gain
  deriving DecidableEq, Repr

/-! Who in the round marked each line, and what an answer marks. -/

/-- A changed line, or the whole file for a file without lines. -/
inductive Line where
  | one (side : SourceSide) (line : Nat)
  | whole
  deriving DecidableEq, Repr

def Line.inLines (line : Line) (named : NamedLines) : Bool :=
  match line with
  | one side line => named.contains side line
  | whole => true

/-- The round of the review, which tells its own marks from those of other rounds. -/
structure RoundMarks where
  round : Option ExploreRound

/-- The round's marks on one file: the lines each answer found not relevant. -/
structure FileMarkers where
  round : RoundMarks
  notRelevant : List (String × NamedLines)

namespace RoundMarks

variable (marks : RoundMarks)

def values : List TurnMarks :=
  match marks.round with
  | none => []
  | some round => round.marks.entries.map Prod.snd

def inFile (file : ChangedFile) : FileMarkers where
  round := marks
  notRelevant := marks.values.filterMap fun applied => do
    let answer ← applied.answer
    let named ← NamedLines.inFile file (NotRelevantMark.locations applied.notRelevant)
    return (answer, named)

def hasAnswer (answer : String) : Bool :=
  marks.round.any fun round => round.exploration.answers.any fun given => given.id = answer

def hasTurn (request : String) : Bool :=
  marks.round.any fun round => round.marks.contains request || round.turns.contains request

end RoundMarks

namespace FileMarkers

variable (markers : FileMarkers)

/-- Whether the turn that an answer applied marked a line not relevant. -/
def foundNotRelevant (answer : String) (line : Line) : Bool :=
  markers.notRelevant.any fun applied => applied.1 = answer && line.inLines applied.2

def marker (author : MarkAuthor) (line : Line) : Marker :=
  match author with
  | .reviewer => .byHand
  | .jev => .jev
  | .exploreRead request => if markers.round.hasTurn request then .notRelevant else .otherRound
  | .explore answer =>
    if markers.round.hasAnswer answer then
      if markers.foundNotRelevant answer line then .notRelevant else .answer
    else .otherRound

end FileMarkers

/-- The marks that an answer to the question that waits applies, on the files where they apply. -/
structure Answering where
  question : InterviewUpdate
  markable : MarkableFiles

/-- The open lines an answer marks, and the marked lines it reopens. -/
structure AnswerEffect where
  pending : PendingLines
  reopened : Nat
  deriving DecidableEq, Repr

/-- The lines an answer names on one file. -/
structure FileAnswer where
  reviewed : Option NamedLines
  notRelevant : Option NamedLines
  reopened : Option NamedLines

/-- How many lines of a selection are kept. -/
def countLines (selection : LineSelection) (keep : Line → Bool) : Nat :=
  (selection.removed.filter fun line => keep (.one .old line)).card +
    (selection.added.filter fun line => keep (.one .new line)).card

namespace FileAnswer

variable (answer : FileAnswer) (line : Line)

def names (named : Option NamedLines) (line : Line) : Bool := named.any line.inLines

def marksReviewed : Bool := names answer.reviewed line

/-- Whether the answer reopens a marked line and leaves it open. -/
def reopens : Bool :=
  names answer.reopened line && !answer.marksReviewed line && !names answer.notRelevant line

end FileAnswer

namespace Answering

variable (answering : Answering) (file : ChangedFile)

/-- Whether the question cites a file. -/
def cites : Bool :=
  answering.question.next.any fun question =>
    question.evidence.any fun evidence => evidence.location.names file

def inFile : FileAnswer :=
  let question := answering.question
  if answering.markable.allows file then
    { reviewed := NamedLines.inFile file question.reviewed
      notRelevant := NamedLines.inFile file (NotRelevantMark.locations question.notRelevant)
      reopened := NamedLines.inFile file question.reopened }
  else ⟨none, none, none⟩

/-- Marks apply to open lines only; a reviewed line that is reopened and marked again stays
marked. -/
def onLines («open» : LineSelection) (reviewed : ReviewedLines) : AnswerEffect :=
  let answer := answering.inFile file
  { pending :=
      { reviewed := countLines «open» answer.marksReviewed
        notRelevant := countLines «open» fun line =>
          !answer.marksReviewed line && FileAnswer.names answer.notRelevant line }
    reopened := countLines reviewed.selection answer.reopens }

/-- What the answer does to a file that is marked or left whole. -/
def onWhole (marked : Bool) : Option WholeChange :=
  let answer := answering.inFile file
  if marked then if answer.reopens .whole then some .reopened else none
  else if answer.reviewed.isSome then some .reviewed
  else if answer.notRelevant.isSome then some .notRelevant
  else none

end Answering

/-- The lines of one path, open or reviewed. -/
structure FileLines where
  «open» : List ChangedLines
  reviewed : ReviewedLines

/-- Every open line. -/
def FileLines.openSelection (lines : FileLines) : LineSelection :=
  ⟨(lines.open.flatMap (·.removed)).toFinset, (lines.open.flatMap (·.added)).toFinset⟩

/-- The review marks of one changed file. -/
inductive Marks where
  | lines (lines : FileLines)
  /-- A file without lines to mark one by one, marked whole by an author or not at all. -/
  | whole (author : Option MarkAuthor)
  | unread

/-- One changed file and its review marks. -/
structure FileMarks where
  file : ChangedFile
  marks : Marks

namespace FileMarks

variable (marks : FileMarks) (markers : FileMarkers) (answering : Option Answering)

def ofLines (lines : FileLines) : Tally :=
  let «open» := lines.openSelection
  let removed := lines.reviewed.removed.toList.map fun (line, author) =>
    markers.marker author (.one .old line)
  let added := lines.reviewed.added.toList.map fun (line, author) =>
    markers.marker author (.one .new line)
  let effect : AnswerEffect := match answering with
    | none => ⟨.zero, 0⟩
    | some answering => answering.onLines marks.file «open» lines.reviewed
  .new ⟨«open».added.card + lines.reviewed.added.size,
      «open».removed.card + lines.reviewed.removed.size⟩
    ((removed ++ added).foldl .count .zero) effect.pending effect.reopened

def ofWhole (author : Option MarkAuthor) : WholeFile where
  markedBy := author.map fun author => markers.marker author .whole
  answering := answering.bind fun answering => answering.onWhole marks.file author.isSome

def tally (round : RoundMarks) : FileTally :=
  let markers := round.inFile marks.file
  { path := displayPath marks.file.reviewPath
    tally := match marks.marks with
      | .lines lines => marks.ofLines markers answering lines
      | .whole _ => .unmarked .zero
      | .unread => .unmarked marks.file.statistics
    whole := match marks.marks with
      | .whole author => some (marks.ofWhole markers answering author)
      | _ => none
    cited := answering.any fun answering => answering.cites marks.file }

end FileMarks

/-- The tally of the change, with what an answer adds while a question waits for one. -/
def MarkTally.ofFiles (files : List FileTally) (waits : Bool) : MarkTally :=
  let change := Tally.sum (files.map (·.tally))
  ⟨change, files, if waits then some (.of change) else none⟩

/-- The tally of a round that waits for an answer to the question a turn posted, if any. -/
def MarkTally.of (files : List FileMarks) (round : Option ExploreRound)
    (question : Option InterviewUpdate) (markable : MarkableFiles) : MarkTally :=
  let answering := question.map fun question => (⟨question, markable⟩ : Answering)
  .ofFiles (files.map fun file => file.tally answering ⟨round⟩) answering.isSome

end ProgressiveReviewer.Tallies
