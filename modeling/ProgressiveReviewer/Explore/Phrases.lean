import ProgressiveReviewer.Explore.Citation
import ProgressiveReviewer.Explore.Interview
import ProgressiveReviewer.Explore.Named

/-! The words in which the screens tell marks, the sections of a question and citations that show
no lines (`review-explore/src/durable.rs`, `sections.rs`, `consequence.rs`, `citation.rs`). Counts
are natural numbers here; the source counts in 32 bits. -/

namespace ProgressiveReviewer.Explore

open Hunks

/-- How many lines and whole files a turn marks reviewed and reopens. -/
structure MarkCounts where
  reviewedLines : Nat
  reviewedFiles : Nat
  notRelevantLines : Nat
  notRelevantFiles : Nat
  reopenedLines : Nat
  reopenedFiles : Nat
  deriving DecidableEq, Repr

/-- Whether a summary tells what marks changed, will change, or change once a question is
answered. -/
inductive MarkTense where
  | applied
  | pending
  | answering
  deriving DecidableEq, Repr

/-- A summary of marks: its verb, and what it marks. -/
structure MarkPhrase where
  verb : String
  parts : List String
  deriving DecidableEq, Repr

def SourceLineRange.count (range : SourceLineRange) : Nat := range.lastLine + 1 - range.firstLine

namespace MarkCounts

def zero : MarkCounts := ⟨0, 0, 0, 0, 0, 0⟩

def lines (locations : List CodeLocation) : Nat :=
  (locations.map fun location => (location.lines.map (·.count)).getD 0).sum

def files (locations : List CodeLocation) : Nat :=
  (locations.filter fun location => location.lines.isNone).length

def count (reviewed notRelevant reopened : List CodeLocation) : MarkCounts where
  reviewedLines := lines reviewed
  reviewedFiles := files reviewed
  notRelevantLines := lines notRelevant
  notRelevantFiles := files notRelevant
  reopenedLines := lines reopened
  reopenedFiles := files reopened

def plural (count : Nat) (one many : String) : String :=
  toString count ++ " " ++ if count = 1 then one else many

def amount (lines files : Nat) : Option String :=
  match lines, files with
  | 0, 0 => none
  | lines, 0 => some (plural lines "line" "lines")
  | 0, files => some (plural files "whole file" "whole files")
  | lines, files =>
    some (plural lines "line" "lines" ++ " and " ++ plural files "whole file" "whole files")

variable (counts : MarkCounts)

def phrase (tense : MarkTense) : MarkPhrase :=
  let (mark, reopen, reopenAlso) := match tense with
    | .applied => ("Marked", "Reopened", "reopened")
    | .pending => ("Will mark", "Will reopen", "reopen")
    | .answering => ("Answering marks", "Answering reopens", "reopens")
  let parts :=
    ((amount counts.reviewedLines counts.reviewedFiles).map (· ++ " reviewed")).toList ++
    ((amount counts.notRelevantLines counts.notRelevantFiles).map (· ++ " not relevant")).toList
  match amount counts.reopenedLines counts.reopenedFiles with
  | none => ⟨mark, parts⟩
  | some reopened =>
    if parts.isEmpty then ⟨reopen, [reopened]⟩
    else ⟨mark, parts ++ [reopenAlso ++ " " ++ reopened]⟩

/-- What the marks cover as a whole: lines not relevant count as reviewed. -/
def coveredPhrase (tense : MarkTense) : MarkPhrase :=
  phrase { counts with
    reviewedLines := counts.reviewedLines + counts.notRelevantLines
    reviewedFiles := counts.reviewedFiles + counts.notRelevantFiles
    notRelevantLines := 0
    notRelevantFiles := 0 } tense

end MarkCounts

def TurnMarks.counts (marks : TurnMarks) : MarkCounts :=
  .count marks.reviewed (NotRelevantMark.locations marks.notRelevant)
    (marks.reopened.map (·.location))

/-! The sections a question shows under their own headings. -/

structure QuestionSection where
  title : String
  lead : String
  details : String
  deriving DecidableEq, Repr

/-- The body of the Context section: the rationale, then the visual. -/
def Question.context (question : Question) : String :=
  String.intercalate "\n\n" ((question.rationale.toList ++ question.visual.toList).filter (!isBlank ·))

def Door.label : Door → String
  | .oneWay => "One-way / hard to reverse"
  | .twoWay => "Two-way"
  | .mixed => "Mixed"
  | .unknown => "Unknown"

namespace Assessments

/-- The lens's details, then each of its unknowns. -/
def details (lens : Consequence) : String :=
  String.intercalate "\n\n" ((if isBlank lens.details then [] else [lens.details]) ++
    lens.unknowns.map ("Unknown: " ++ ·))

/-- The Door and Blast radius sections, in that order. -/
def sections (assessments : Assessments) : List QuestionSection :=
  [⟨"Door", assessments.door.label ++ " — " ++ assessments.reversibility.summary,
      details assessments.reversibility⟩,
    ⟨"Blast radius", assessments.blastRadius.summary, details assessments.blastRadius⟩]

end Assessments

/-- Why a file whose change has no text diff shows no lines. -/
def noTextDiff : NoticeKind → String
  | .binary => "File-level evidence · the change of this file is binary."
  | .conflict =>
    "File-level evidence · this file has an unresolved conflict, so the change shows no lines of it."
  | .unsupported => "File-level evidence · the change of this file has no text diff."

def Uncitable.display : Uncitable → String
  | .path => "The cited path is outside the repository."
  | .unreadable error => "File-level evidence · non-text or unavailable source: " ++ error
  | .range => "The saved evidence range is unavailable in this source."
  | .wholeFile => "File-level evidence · the citation names the whole file, not lines of it, so no lines show here."
  | .noTextDiff kind => Explore.noTextDiff kind
  | .untracked => "This file is not part of the repository's tracked files, so its lines do not show here."
  | .gone => "The code this round cited is no longer available: the repository no longer holds the commit the round reviewed, and the round's saved diff does not hold these lines."

end ProgressiveReviewer.Explore
