import ProgressiveReviewer.Explore.Source

/-! The marks an agent may add to its Markdown (`markdown-marks/src/lib.rs`), and the Markdown
parser's events rewritten into those of a page's HTML (`markdown-html/src/lib.rs`). -/

namespace ProgressiveReviewer.Markdown

open Explore (isWhitespace)

abbrev Text := List Char

/-- How a mark is written and shown. -/
structure Spelling where
  marker : String
  label : String
  name : String

inductive Callout where
  | conclusion
  | tip
  | warning
  | error
  deriving DecidableEq, Repr

namespace Callout

def all : List Callout := [conclusion, tip, warning, error]

def spelling : Callout → Spelling
  | conclusion => ⟨"[!CONCLUSION]", "Conclusion", "conclusion"⟩
  | tip => ⟨"[!TIP]", "Tip", "tip"⟩
  | warning => ⟨"[!WARNING]", "Warning", "warning"⟩
  | error => ⟨"[!ERROR]", "Error", "error"⟩

end Callout

inductive StatusMark where
  | good
  | bad
  | warning
  deriving DecidableEq, Repr

namespace StatusMark

def all : List StatusMark := [good, bad, warning]

def spelling : StatusMark → Spelling
  | good => ⟨"[!good]", "Good", "good"⟩
  | bad => ⟨"[!bad]", "Bad", "bad"⟩
  | warning => ⟨"[!warning]", "Warning", "warning"⟩

def symbol : StatusMark → String
  | good => "✓"
  | bad => "✗"
  | warning => "!"

end StatusMark

/-- Text that begins with an ASCII text, in either case, and what comes after it. -/
def openingCase (start : String) (text : Text) : Option Text :=
  if (text.take start.length).map Char.toLower = start.toList.map Char.toLower then
    some (text.drop start.length)
  else none

/-- The mark whose marker opens a text, after any leading space, and the text after the marker and
the space that follows it. -/
def strip {α : Type} (all : List α) (spelling : α → Spelling) (text : Text) : Option (α × Text) :=
  all.findSome? fun mark =>
    (openingCase (spelling mark).marker (text.dropWhile isWhitespace)).map fun rest =>
      (mark, rest.dropWhile isWhitespace)

/-- Only web and `mailto:` addresses stay links. -/
def isWebLink (url : Text) : Bool :=
  ["http://", "https://", "mailto:"].any fun scheme => (openingCase scheme url).isSome

/-! The parser's events. Of its tags, those that its options let it find. -/

inductive HeadingLevel where
  | h1
  | h2
  | h3
  | h4
  | h5
  | h6
  deriving DecidableEq, Repr

namespace HeadingLevel

def toNat : HeadingLevel → Nat
  | h1 => 1
  | h2 => 2
  | h3 => 3
  | h4 => 4
  | h5 => 5
  | h6 => 6

def tryFrom : Nat → Option HeadingLevel
  | 1 => some h1
  | 2 => some h2
  | 3 => some h3
  | 4 => some h4
  | 5 => some h5
  | 6 => some h6
  | _ => none

/-- A heading under one of a level, and none deeper than the sixth. -/
def shift (level : HeadingLevel) (headingShift : Nat) : HeadingLevel :=
  (tryFrom (min (level.toNat + headingShift) 6)).getD h6

end HeadingLevel

inductive Alignment where
  | none
  | left
  | center
  | right
  deriving DecidableEq, Repr

inductive LinkType where
  | inline
  | reference
  | referenceUnknown
  | collapsed
  | collapsedUnknown
  | shortcut
  | shortcutUnknown
  | autolink
  | email
  deriving DecidableEq, Repr

/-- What a link or an image names. -/
structure Target where
  linkType : LinkType
  destUrl : Text
  title : Text
  id : Text
  deriving DecidableEq, Repr

/-- A heading's own names. -/
structure HeadingNames where
  id : Option Text
  classes : List Text
  attrs : List (Text × Option Text)
  deriving DecidableEq, Repr

inductive Tag where
  | paragraph
  | heading (level : HeadingLevel) (names : HeadingNames)
  | blockQuote
  /-- The info string of a fenced block. -/
  | codeBlock (language : Option Text)
  | htmlBlock
  | list (start : Option Nat)
  | item
  | table (alignments : List Alignment)
  | tableHead
  | tableRow
  | tableCell
  | emphasis
  | strong
  | strikethrough
  | link (target : Target)
  | image (target : Target)
  deriving DecidableEq, Repr

inductive TagEnd where
  | paragraph
  | heading (level : HeadingLevel)
  | blockQuote
  | codeBlock
  | htmlBlock
  | list (ordered : Bool)
  | item
  | table
  | tableHead
  | tableRow
  | tableCell
  | emphasis
  | strong
  | strikethrough
  | link
  | image
  deriving DecidableEq, Repr

def Tag.toEnd : Tag → TagEnd
  | paragraph => .paragraph
  | heading level _ => .heading level
  | blockQuote => .blockQuote
  | codeBlock _ => .codeBlock
  | htmlBlock => .htmlBlock
  | list start => .list start.isSome
  | item => .item
  | table _ => .table
  | tableHead => .tableHead
  | tableRow => .tableRow
  | tableCell => .tableCell
  | emphasis => .emphasis
  | strong => .strong
  | strikethrough => .strikethrough
  | link _ => .link
  | image _ => .image

/-- An event that stands alone. -/
inductive Leaf where
  | text (text : Text)
  | code (text : Text)
  | html (html : Text)
  | inlineHtml (html : Text)
  | softBreak
  | hardBreak
  | rule
  | taskListMarker (done : Bool)
  deriving DecidableEq, Repr

inductive Event where
  | start (tag : Tag)
  | stop (tag : TagEnd)
  | leaf (leaf : Leaf)
  deriving DecidableEq, Repr

end ProgressiveReviewer.Markdown

/-! The rewrite of the parser's events, one after the other (`markdown-html/src/lib.rs`). The
agent's text is not trusted. -/

namespace ProgressiveReviewer.Markdown

/-- Where the rewrite is in a table: the cells take their alignment and element from it. -/
structure TableState where
  alignments : List Alignment
  inHead : Bool
  column : Nat
  deriving DecidableEq, Repr

def TableState.start (table : TableState) : Tag → TableState
  | .table alignments => { table with alignments }
  | .tableHead => { table with inHead := true, column := 0 }
  | .tableRow => { table with column := 0 }
  | _ => table

def Callout.html (callout : Callout) : Text :=
  ("<div class=\"callout callout-" ++ callout.spelling.name ++ "\" role=\"note\" aria-label=\"" ++
    callout.spelling.label ++ "\">\n<p class=\"callout-title\">" ++ callout.spelling.label ++
    "</p>\n").toList

def StatusMark.html (mark : StatusMark) : Text :=
  ("<span class=\"status\" role=\"img\" aria-label=\"" ++ mark.spelling.label ++ "\">" ++
    mark.symbol ++ "</span>").toList

def Alignment.class : Alignment → List String
  | left => ["align-left"]
  | center => ["align-center"]
  | right => ["align-right"]
  | none => []

/-- What opens a table cell. -/
def cellHtml (header : Bool) (alignment : Option Alignment) (status : Option StatusMark) : Text :=
  let element := if header then "th" else "td"
  let classes := alignment.elim [] Alignment.class ++
    (status.map fun mark => "status-" ++ mark.spelling.name).toList
  let class_ := if classes = [] then "" else " class=\"" ++ " ".intercalate classes ++ "\""
  ("<" ++ element ++ class_ ++ ">").toList

def closingDiv : Text := "</div>\n".toList

/-- Rewrites the parser's events into the events of the page's HTML. -/
structure Rewrite where
  /-- How many levels the text's headings move down. -/
  headingShift : Nat
  input : List Event
  output : List Event
  /-- For each quote open, whether it is a callout. -/
  quotes : List Bool
  /-- For each link open, whether it stays a link. -/
  links : List Bool
  table : TableState

namespace Rewrite

def new (headingShift : Nat) (input : List Event) : Rewrite :=
  ⟨headingShift, input, [], [], [], ⟨[], false, 0⟩⟩

variable (rewrite : Rewrite)

def push (events : List Event) : Rewrite := { rewrite with output := rewrite.output ++ events }

def pop (count : Nat) : Rewrite := { rewrite with input := rewrite.input.drop count }

/-- The event `ahead` events after the next one (0 for the next), without taking it. -/
def peek (ahead : Nat) : Option Event := rewrite.input[ahead]?

/-- The mark whose marker opens the text event `ahead`, and the text after the marker. -/
def marked {α : Type} (all : List α) (spelling : α → Spelling) (ahead : Nat) : Option (α × Text) :=
  match rewrite.peek ahead with
  | some (.leaf (.text text)) => strip all spelling text
  | _ => none

/-- The callout whose marker opens the first paragraph of a quote. -/
def calloutMark : Option (Callout × Text) :=
  if rewrite.peek 0 = some (.start .paragraph) then
    rewrite.marked Callout.all Callout.spelling 1
  else none

/-- The rest of a callout's first paragraph, of which the marker stood alone: drop its line, and the
paragraph when nothing else was in it. -/
def dropMarker : Rewrite :=
  match rewrite.peek 0 with
  | some (.leaf .softBreak) | some (.leaf .hardBreak) => (rewrite.pop 1).push [.start .paragraph]
  | some (.stop .paragraph) => rewrite.pop 1
  | _ => rewrite.push [.start .paragraph]

/-- A quote whose first paragraph opens with a callout marker becomes that callout, titled in place
of the marker. -/
def quote : Rewrite :=
  match rewrite.calloutMark with
  | none => { rewrite.push [.start .blockQuote] with quotes := false :: rewrite.quotes }
  | some (callout, rest) =>
    let titled := { (rewrite.push [.leaf (.html callout.html)]).pop 2 with
      quotes := true :: rewrite.quotes }
    if rest ≠ [] then titled.push [.start .paragraph, .leaf (.text rest)] else titled.dropMarker

/-- A table cell, aligned by a class, with the status its marker gives. -/
def cell : Rewrite :=
  let opened (status : Option StatusMark) := rewrite.push [.leaf (.html (cellHtml
    rewrite.table.inHead rewrite.table.alignments[rewrite.table.column]? status))]
  match rewrite.marked StatusMark.all StatusMark.spelling 0 with
  | none => opened none
  | some (mark, rest) =>
    let marked := ((opened (some mark)).pop 1).push [.leaf (.html mark.html)]
    if rest ≠ [] then marked.push [.leaf (.text (' ' :: rest))]
    else if marked.peek 0 ≠ some (.stop .tableCell) then marked.push [.leaf (.text [' '])]
    else marked

def start (tag : Tag) : Rewrite :=
  match tag with
  | .htmlBlock => rewrite.push [.start .paragraph]
  | .blockQuote => rewrite.quote
  | .table _ | .tableHead | .tableRow =>
    { rewrite.push [.start tag] with table := rewrite.table.start tag }
  | .tableCell => rewrite.cell
  | .heading level names => rewrite.push [.start (.heading (level.shift rewrite.headingShift) names)]
  | .link target =>
    let kept := decide (target.linkType = .email) || isWebLink target.destUrl
    let rewrite := { rewrite with links := kept :: rewrite.links }
    if kept then rewrite.push [.start tag] else rewrite
  | .image _ => rewrite
  | tag => rewrite.push [.start tag]

def stop (tag : TagEnd) : Rewrite :=
  match tag with
  | .htmlBlock => rewrite.push [.stop .paragraph]
  | .blockQuote =>
    let closed := { rewrite with quotes := rewrite.quotes.tail }
    if rewrite.quotes.head? = some true then closed.push [.leaf (.html closingDiv)]
    else closed.push [.stop .blockQuote]
  | .tableHead =>
    { rewrite.push [.stop .tableHead] with table := { rewrite.table with inHead := false } }
  | .tableCell =>
    { rewrite.push [.stop .tableCell] with
      table := { rewrite.table with column := rewrite.table.column + 1 } }
  | .heading level => rewrite.push [.stop (.heading (level.shift rewrite.headingShift))]
  | .link =>
    let closed := { rewrite with links := rewrite.links.tail }
    if rewrite.links.head? = some true then closed.push [.stop .link] else closed
  | .image => rewrite
  | tag => rewrite.push [.stop tag]

/-- Rewrite one event, which was taken off the input. -/
def take : Event → Rewrite
  | .start tag => rewrite.start tag
  | .stop tag => rewrite.stop tag
  | .leaf (.html html) | .leaf (.inlineHtml html) => rewrite.push [.leaf (.text html)]
  | event => rewrite.push [event]

@[simp] theorem input_push (events : List Event) : (rewrite.push events).input = rewrite.input :=
  rfl

@[simp] theorem input_pop (count : Nat) : (rewrite.pop count).input = rewrite.input.drop count :=
  rfl

theorem length_dropMarker : rewrite.dropMarker.input.length ≤ rewrite.input.length := by
  unfold dropMarker
  split <;> simp

theorem length_quote : rewrite.quote.input.length ≤ rewrite.input.length := by
  unfold quote
  split
  · simp
  · next callout rest _ =>
    split_ifs
    · simp
    · refine Nat.le_trans (length_dropMarker _) ?_
      simp

theorem length_cell : rewrite.cell.input.length ≤ rewrite.input.length := by
  unfold cell
  dsimp only
  split
  · simp
  · split_ifs <;> simp

/-- What is left of the input gets no longer. -/
theorem length_take (event : Event) : (rewrite.take event).input.length ≤ rewrite.input.length := by
  cases event with
  | start tag =>
    cases tag with
    | blockQuote => exact length_quote rewrite
    | tableCell => exact length_cell rewrite
    | link target =>
      simp only [take, start]
      split_ifs <;> simp
    | _ => exact Nat.le_refl _
  | stop tag =>
    cases tag with
    | blockQuote =>
      simp only [take, stop]
      split_ifs <;> simp
    | link =>
      simp only [take, stop]
      split_ifs <;> simp
    | _ => exact Nat.le_refl _
  | leaf leaf => cases leaf <;> exact Nat.le_refl _

/-- Rewrite the whole input. -/
def run (rewrite : Rewrite) : Rewrite :=
  match _some : rewrite.input with
  | [] => rewrite
  | event :: input => run ({ rewrite with input }.take event)
termination_by rewrite.input.length
decreasing_by
  have bound := length_take { rewrite with input := input } event
  rw [_some, List.length_cons]
  exact Nat.lt_succ_of_le bound

end Rewrite

/-- Whether a tag marks up text inside a line rather than a block. -/
def isInline : TagEnd → Bool
  | .emphasis | .strong | .strikethrough | .link => true
  | _ => false

def Leaf.inline : Leaf → Option Leaf
  | softBreak | hardBreak => some (text [' '])
  | html _ | inlineHtml _ | rule | taskListMarker _ => none
  | leaf => some leaf

/-- What is left of an event in a text that is meant for one line. -/
def Event.inline : Event → Option Event
  | start tag => if isInline tag.toEnd then some (start tag) else none
  | stop tag => if isInline tag then some (stop tag) else none
  | leaf own => own.inline.map leaf

end ProgressiveReviewer.Markdown

/-! Whatever events the parser gives, no HTML of the agent's comes out, and no link but to the web
or to an address. -/

namespace ProgressiveReviewer.Markdown

/-- The HTML that the rewrite writes itself. -/
inductive Trusted : Text → Prop
  | callout (callout : Callout) : Trusted callout.html
  | closing : Trusted closingDiv
  | status (mark : StatusMark) : Trusted mark.html
  | cell (header : Bool) (alignment : Option Alignment) (status : Option StatusMark) :
      Trusted (cellHtml header alignment status)

/-- What may stand on the page, under a heading of a level. -/
def Safe (level : Nat) : Event → Prop
  | .leaf (.html html) => Trusted html
  | .leaf (.inlineHtml _) => False
  | .start (.link target) => target.linkType = .email ∨ isWebLink target.destUrl = true
  | .start (.heading own _) => min (level + 1) 6 ≤ own.toNat
  | .start (.image _) | .start .htmlBlock | .stop .image | .stop .htmlBlock => False
  | _ => True

theorem HeadingLevel.toNat_shift (level : HeadingLevel) (headingShift : Nat) :
    (level.shift headingShift).toNat = min (level.toNat + headingShift) 6 := by
  have bound : 1 ≤ level.toNat := by cases level <;> decide
  obtain ⟨shifted, is⟩ : ∃ shifted, shifted = min (level.toNat + headingShift) 6 := ⟨_, rfl⟩
  rw [shift, ← is]
  have known : shifted = 1 ∨ shifted = 2 ∨ shifted = 3 ∨ shifted = 4 ∨ shifted = 5 ∨ shifted = 6 := by
    omega
  rcases known with rfl | rfl | rfl | rfl | rfl | rfl <;> rfl

namespace Rewrite

def Sound (level : Nat) (rewrite : Rewrite) : Prop :=
  rewrite.headingShift = level ∧ ∀ event ∈ rewrite.output, Safe level event

variable {rewrite : Rewrite} {level : Nat}

theorem sound_push (sound : rewrite.Sound level) {events : List Event}
    (safe : ∀ event ∈ events, Safe level event) : (rewrite.push events).Sound level := by
  refine ⟨sound.1, fun event mem => ?_⟩
  rcases List.mem_append.mp mem with mem | mem
  · exact sound.2 event mem
  · exact safe event mem

theorem sound_push_one (sound : rewrite.Sound level) {event : Event}
    (safe : Safe level event) : (rewrite.push [event]).Sound level :=
  sound_push sound fun _ mem => List.mem_singleton.mp mem ▸ safe

theorem sound_dropMarker (sound : rewrite.Sound level) : rewrite.dropMarker.Sound level := by
  unfold dropMarker
  split
  · exact sound_push_one (by exact sound) trivial
  · exact sound_push_one (by exact sound) trivial
  · exact sound
  · exact sound_push_one sound trivial

theorem sound_quote (sound : rewrite.Sound level) : rewrite.quote.Sound level := by
  unfold quote
  split
  · exact sound_push_one sound trivial
  · next callout rest _ =>
    have titled : (rewrite.push [.leaf (.html callout.html)]).Sound level :=
      sound_push_one sound (Trusted.callout callout)
    split_ifs
    · exact sound_push (by exact titled) (by simp [Safe])
    · exact sound_dropMarker (by exact titled)

theorem sound_cell (sound : rewrite.Sound level) : rewrite.cell.Sound level := by
  have opened (status : Option StatusMark) : (rewrite.push [.leaf (.html (cellHtml
      rewrite.table.inHead rewrite.table.alignments[rewrite.table.column]? status))]).Sound level :=
    sound_push_one sound (Trusted.cell _ _ _)
  unfold cell
  dsimp only
  split
  · exact opened none
  · next mark rest _ =>
    have marked : (((rewrite.push [.leaf (.html (cellHtml rewrite.table.inHead
        rewrite.table.alignments[rewrite.table.column]? (some mark)))]).pop 1).push
          [.leaf (.html mark.html)]).Sound level :=
      sound_push_one (by exact opened (some mark)) (Trusted.status mark)
    split_ifs
    · exact sound_push_one marked trivial
    · exact sound_push_one marked trivial
    · exact marked

theorem sound_take (sound : rewrite.Sound level) (event : Event) : (rewrite.take event).Sound level := by
  cases event with
  | start tag =>
    cases tag with
    | blockQuote => exact sound_quote sound
    | tableCell => exact sound_cell sound
    | image target => exact sound
    | heading own names =>
      refine sound_push_one sound ?_
      have bound : 1 ≤ own.toNat := by cases own <;> decide
      simp only [Safe, HeadingLevel.toNat_shift, sound.1]
      omega
    | link target =>
      simp only [take, start]
      split_ifs with kept
      · refine sound_push_one (by exact sound) ?_
        simpa [Safe] using kept
      · exact sound
    | _ => exact sound_push_one sound trivial
  | stop tag =>
    cases tag with
    | blockQuote =>
      simp only [take, stop]
      split_ifs
      · exact sound_push_one (by exact sound) Trusted.closing
      · exact sound_push_one (by exact sound) trivial
    | link =>
      simp only [take, stop]
      split_ifs
      · exact sound_push_one (by exact sound) trivial
      · exact sound
    | image => exact sound
    | _ => exact sound_push_one sound trivial
  | leaf leaf => cases leaf <;> exact sound_push_one sound trivial

theorem sound_run (sound : rewrite.Sound level) : rewrite.run.Sound level := by
  induction rewrite using run.induct with
  | case1 rewrite done =>
    rw [run]
    split
    · exact sound
    · next more => simp [done] at more
  | case2 rewrite event input some ih =>
    rw [run]
    split
    · next none => simp [some] at none
    · next other rest more =>
      obtain ⟨rfl, rfl⟩ := List.cons.inj (some.symm.trans more)
      exact ih (sound_take (by exact sound) event)

/-- Whatever events come in, every event that comes out is safe: its HTML is the rewrite's own, its
links lead to the web or are addresses, there are no images, and its headings come under the one
they sit under. -/
theorem run_safe (level : Nat) (events : List Event) :
    ∀ event ∈ (new level events).run.output, Safe level event :=
  (sound_run ⟨rfl, fun _ mem => by cases mem⟩).2

theorem run_safe_heading :
    (new 2 [.leaf (.html "<script>".toList), .start (.heading .h1 ⟨none, [], []⟩)]).run.output =
        [.leaf (.text "<script>".toList), .start (.heading .h3 ⟨none, [], []⟩)] ∧
      Safe 2 (.start (.heading .h3 ⟨none, [], []⟩)) := by
  have output : (new 2 [.leaf (.html "<script>".toList),
      .start (.heading .h1 ⟨none, [], []⟩)]).run.output =
        [.leaf (.text "<script>".toList), .start (.heading .h3 ⟨none, [], []⟩)] := by
    decide +kernel
  exact ⟨output, run_safe 2 _ _ (by rw [output]; simp)⟩

end Rewrite

end ProgressiveReviewer.Markdown
