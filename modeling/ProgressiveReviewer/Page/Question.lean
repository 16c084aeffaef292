import ProgressiveReviewer.Page.Round

/-! The agent's question as the page shows it: the text, the explanation, the choices with the
agent's recommendation, the lines an answer marks and the citations
(`review-explore-page/src/view/question.rs`, `review-explore-citations/src/lib.rs`). -/

namespace ProgressiveReviewer.Page

open Explore Marks Tallies

/-- A part of the design: its heading, its thesis and the rest of its text. -/
structure DesignSection where
  title : String
  thesis : String
  body : String
  deriving DecidableEq, Repr

/-- What reads Markdown: its HTML, as a text or inline, under a heading of some level, and the
parts of a design. -/
structure Drawing where
  render : Nat → String → String
  renderInline : Nat → String → String
  thesis : Design → String
  parts : Design → List DesignSection
  readingMinutes : Design → Nat
  /-- The address of the script that draws diagrams. -/
  scriptPath : String

namespace Drawing

variable (draw : Drawing)

def markdown (text : String) (level : Nat) : String := draw.render level text

def markdownIfAny (text : String) (level : Nat) : Option String :=
  if text.isEmpty then none else some (draw.markdown text level)

end Drawing

/-- One titled part of the agent's Markdown: its lead, then the rest. -/
structure SectionView where
  title : String
  leadHtml : String
  detailsHtml : Option String
  deriving DecidableEq, Repr

def SectionView.new (draw : Drawing) (part : QuestionSection) (level : Nat) : SectionView :=
  ⟨part.title, draw.markdown part.lead level, draw.markdownIfAny part.details level⟩

structure TokenView where
  text : String
  role : Option String
  deriving DecidableEq, Repr

/-- The Catppuccin roles that the syntax theme uses, with their Mocha color. -/
def palette : List (String × (UInt8 × UInt8 × UInt8)) := [
  ("rosewater", (0xf5, 0xe0, 0xdc)), ("flamingo", (0xf2, 0xcd, 0xcd)), ("pink", (0xf5, 0xc2, 0xe7)),
  ("mauve", (0xcb, 0xa6, 0xf7)), ("red", (0xf3, 0x8b, 0xa8)), ("maroon", (0xeb, 0xa0, 0xac)),
  ("peach", (0xfa, 0xb3, 0x87)), ("yellow", (0xf9, 0xe2, 0xaf)), ("green", (0xa6, 0xe3, 0xa1)),
  ("teal", (0x94, 0xe2, 0xd5)), ("sky", (0x89, 0xdc, 0xeb)), ("sapphire", (0x74, 0xc7, 0xec)),
  ("blue", (0x89, 0xb4, 0xfa)), ("lavender", (0xb4, 0xbe, 0xfe)), ("overlay2", (0x93, 0x99, 0xb2))]

/-- The role of a token's color, or none for the text color. -/
def Token.role (token : Token) : Option String :=
  token.color.bind fun color => (palette.find? fun entry => entry.2 = color).map Prod.fst

def TokenView.new (token : Token) : TokenView := ⟨token.text, token.role⟩

inductive RowKind where
  | context
  | added
  | removed
  deriving DecidableEq, Repr

/-- One row of the cited lines. -/
structure RowView where
  kind : RowKind
  oldLine : Option Nat
  newLine : Option Nat
  tokens : List TokenView
  deriving DecidableEq, Repr

namespace RowView

def new (row : HighlightedRow) : Option RowView :=
  let tokens := row.tokens.map TokenView.new
  match row.diff with
  | .context oldLine newLine _ => some ⟨.context, some oldLine, some newLine, tokens⟩
  | .delete oldLine _ => some ⟨.removed, some oldLine, none, tokens⟩
  | .add newLine _ => some ⟨.added, none, some newLine, tokens⟩
  | _ => none

def isIndent (char : Char) : Bool := char = ' ' || char = '\t'

/-- How many spaces or tabs open a text, after those counted; none for a blank one. -/
def opening (count : Nat) : List Char → Option Nat
  | [] => none
  | char :: chars =>
    if isIndent char then opening (count + 1) chars
    else if char = '\n' || char = '\r' then none
    else some count

def indentation (row : RowView) : Option Nat := opening 0 (row.tokens.flatMap (·.text.toList))

/-- Take up to so many leading spaces or tabs off the tokens. -/
def stripTokens : Nat → List TokenView → List TokenView
  | 0, tokens => tokens
  | _ + 1, [] => []
  | count + 1, token :: tokens =>
    let chars := token.text.toList
    let blank := ((chars.take (count + 1)).takeWhile isIndent).length
    let left : TokenView := { token with text := String.ofList (chars.drop blank) }
    if left.text.isEmpty then left :: stripTokens (count + 1 - blank) tokens else left :: tokens

def strip (count : Nat) (row : RowView) : RowView :=
  { row with tokens := (stripTokens count row.tokens).filter fun token => !token.text.isEmpty }

/-- The rows without the indentation they all share. -/
def dedented (rows : List RowView) : List RowView :=
  let shared := (rows.filterMap indentation).min?.getD 0
  if 0 < shared then rows.map (strip shared) else rows

end RowView

/-- One citation: its location, its note and the cited lines. -/
structure CitationView where
  location : String
  path : String
  span : String
  notes : String
  rows : List RowView
  limitation : Option String
  deriving DecidableEq, Repr

namespace CitationView

def spanText (first last : Nat) : String :=
  if first = last then toString first else toString first ++ "–" ++ toString last

def new (citation : Citation) : CitationView :=
  let location := citation.evidence.location
  let (rows, limitation) := match citation.lines with
    | .ok rows => (RowView.dedented (rows.filterMap RowView.new), none)
    | .error limitation => ([], some limitation.display)
  { location := location.display
    path := displayPath location.path
    span := match location.lines with
      | none => "whole file"
      | some lines => location.side.pick "old" "new" ++ " " ++ spanText lines.firstLine lines.lastLine
    notes := citation.evidence.notes
    rows := rows
    limitation := limitation }

end CitationView

/-- When the page shows the agent's recommendation for a question. -/
inductive Recommendation where
  | shown
  | hiddenUntilPick
  | shownAfterPick
  deriving DecidableEq, Repr

/-- One choice of a question. -/
structure ChoiceView where
  id : String
  text : String
  recommendation : Option String
  checked : Bool
  deriving DecidableEq, Repr

namespace ChoiceView

def new (choice : Alternative) (recommendation : Recommendation) (firstPick : Option String) :
    ChoiceView where
  id := choice.id
  text := choice.text
  recommendation := choice.recommendation.filter fun _ => recommendation ≠ .hiddenUntilPick
  checked := firstPick = some choice.id

/-- Select the choice when it is the one kept, by its text. -/
def keep (kept : Option String) (choice : ChoiceView) : ChoiceView :=
  { choice with checked := kept = some choice.text }

/-- The choices of an answered question, in the agent's order. -/
def kept (question : Question) (kept : Option String) : List ChoiceView :=
  question.choices.map fun choice => (new choice .shown none).keep kept

end ChoiceView

/-- What an answer to the question marks: a summary, and the lines. -/
structure MarksView where
  summary : MarkPhrase
  reviewed : List String
  notRelevant : List String
  reopened : List String
  deriving DecidableEq, Repr

namespace MarksView

/-- A mark with why its lines are not relevant. -/
def notRelevantText (mark : NotRelevantMark) : String :=
  let why := match mark.reason with
    | none => "not relevant"
    | some reason =>
      let reason := match reason with
        | .removedCode => "removed code the change is about"
        | .testedMechanics => "mechanics covered by tests"
        | .followsCode => "follows the code"
      "not relevant: " ++ reason ++ match mark.test with
        | none => ""
        | some test => ", see " ++ displayPath test.path ++ " " ++ test.lines.display
  mark.location.display ++ " (" ++ why ++ ")"

def new (marks : QuestionMarks) : Option MarksView :=
  let summary := marks.counts.coveredPhrase .answering
  if summary.parts.isEmpty then none
  else some
    { summary
      reviewed := marks.reviewed.map (·.display)
      notRelevant := marks.notRelevant.map notRelevantText
      reopened := marks.reopened.map (·.display) }

end MarksView

/-- The reviewed share of the change before and after the answer, in whole percent. -/
structure GainView where
  before : Nat
  after : Nat
  deriving DecidableEq, Repr

/-- The notice above a question the agent revised from the conversation. -/
structure RevisionView where
  reasonHtml : String
  replacedVersion : Nat
  deriving DecidableEq, Repr

structure QuestionView where
  round : Option String
  number : Nat
  id : String
  version : Nat
  textHtml : String
  door : Option Door
  contextHtml : Option String
  sections : List SectionView
  recommendation : Recommendation
  choices : List ChoiceView
  citations : List CitationView
  marks : Option MarksView
  gain : Option GainView
  answerable : Bool
  revision : Option RevisionView
  deriving DecidableEq, Repr

namespace QuestionView

/-- `blind` is the question when it hides the recommendation until the first pick, `picked` the
choice the reviewer picked first. -/
def new (draw : Drawing) (round : Option String) (number : Nat) (question : Question)
    (blind : Option BlindQuestion) (citations : List Citation) (marks : QuestionMarks)
    (picked : Option String) : QuestionView :=
  let (recommendation, choices) : Recommendation × List Alternative := match blind, picked with
    | none, _ => (.shown, question.choices)
    | some blind, none => (.hiddenUntilPick, blind.choices)
    | some blind, some _ => (.shownAfterPick, blind.choices)
  { round, number, recommendation
    id := question.id
    version := question.version
    textHtml := draw.markdown question.text 2
    door := question.assessments.map (·.door)
    contextHtml := draw.markdownIfAny question.context 2
    sections := (question.assessments.toList.flatMap (·.sections)).map fun part => .new draw part 2
    choices := choices.map fun choice => .new choice recommendation picked
    citations := citations.map .new
    marks := MarksView.new marks
    gain := none
    answerable := true
    revision := none }

variable (view : QuestionView)

def revised (draw : Drawing) (revision : Option QuestionRevised) : QuestionView :=
  { view with revision := revision.map fun revision =>
      ⟨draw.markdown revision.reason 2, revision.replaced⟩ }

def withAnswerable (answerable : Bool) : QuestionView := { view with answerable := answerable }

/-- The question with the choice the reviewer sent selected, by its text. -/
def keeping (kept : Option String) : QuestionView :=
  { view with choices := view.choices.map (ChoiceView.keep kept) }

/-- What an answer changes, as the tally counts it. -/
def answering (tally : MarkTally) (gain : Gain) : MarkPhrase :=
  let clamped (count : Nat) := min count (2 ^ 32 - 1)
  let whole (change : WholeChange) :=
    clamped (tally.files.filter fun file => file.whole.bind (·.answering) = some change).length
  MarkCounts.coveredPhrase
    { reviewedLines := clamped gain.pending.reviewed
      reviewedFiles := whole .reviewed
      notRelevantLines := clamped gain.pending.notRelevant
      notRelevantFiles := whole .notRelevant
      reopenedLines := clamped gain.reopened
      reopenedFiles := whole .reopened } .answering

/-- What an answer marks as the tally counts it, not the lines the agent named. -/
def counted (tally : Option MarkTally) : QuestionView :=
  match (do let tally ← tally; return (tally, ← tally.gain)), view.marks with
  | some (tally, gain), some marks =>
    let summary := answering tally gain
    if summary.parts.isEmpty then { view with marks := none }
    else { view with
      marks := some { marks with summary := summary }
      gain := some ⟨gain.before.percent, gain.after.percent⟩ }
  | _, _ => view

/-- The question that a round asks, with the reviewer's first pick of it. -/
def of (draw : Drawing) (round : RoundSnapshot) (picks : FirstPicks) : Option QuestionView :=
  match round.stage with
  | .question _ question citations marks response _ =>
    -- A past round shows the recommendation it showed the reviewer then.
    let blind := round.stage.blind.filter fun _ => !round.past
    let picked := do
      let blind ← blind
      (picks.of (← round.round) question.id question.version).filter blind.offers
    some ((((new draw round.round (round.questionNumber.getD 0) question blind citations marks
      picked).withAnswerable !round.earlier).counted round.tally).revised draw response.revision)
  | _ => none

/-- An answered question, which the page shows read only beside the answer. -/
def answered (draw : Drawing) (round : Option String) (number : Nat)
    (answered : AnsweredQuestion) : QuestionView :=
  let view := (new draw round number answered.question none answered.citations .none none).withAnswerable
    false
  if answered.pickedBlind then { view with recommendation := .shownAfterPick } else view

end QuestionView

end ProgressiveReviewer.Page
