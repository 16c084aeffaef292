import ProgressiveReviewer.Markdown.Rewrite
import ProgressiveReviewer.Library.Forest

/-! What the rewrite comes to for a document: the tree of a page, whose parts open and close around
what they hold. -/

namespace ProgressiveReviewer.Markdown

open Library

/-- A document as the parser reads it. -/
abbrev Document := Forest Tag Leaf

/-- The events that the parser gives for a document. -/
def Document.events (document : Document) : List Event :=
  Forest.events Event.start (fun tag => .stop tag.toEnd) Event.leaf document

/-- A part of a page that holds others. -/
inductive Element where
  | tag (tag : Tag)
  | callout (callout : Callout)
  | cell (header : Bool) (alignment : Option Alignment) (status : Option StatusMark)
  deriving DecidableEq, Repr

inductive Content where
  | leaf (leaf : Leaf)
  | status (mark : StatusMark)
  deriving DecidableEq, Repr

def Element.opens : Element → Event
  | tag own => .start own
  | callout own => .leaf (.html own.html)
  | cell header alignment status => .leaf (.html (cellHtml header alignment status))

def Element.closes : Element → Event
  | tag own => .stop own.toEnd
  | callout _ => .leaf (.html closingDiv)
  | cell _ _ _ => .stop .tableCell

def Content.event : Content → Event
  | leaf own => .leaf own
  | status mark => .leaf (.html mark.html)

abbrev Page := Forest Element Content

def Page.events (page : Page) : List Event :=
  Forest.events Element.opens Element.closes Content.event page

/-- Raw HTML shows as text. -/
def Leaf.shown : Leaf → Leaf
  | html own | inlineHtml own => .text own
  | leaf => leaf

/-- What a tag is on the page, if what it holds has one around it there. -/
def Tag.shown (level : Nat) : Tag → Option Tag
  | htmlBlock => some paragraph
  | heading own names => some (heading (own.shift level) names)
  | link target =>
    if decide (target.linkType = .email) || isWebLink target.destUrl then some (link target) else none
  | image _ => none
  | tag => some tag

/-- A callout's paragraphs, the first of which had a marker that `rest` came after. -/
def afterMarker (rest : Text) (inlines more : Document) : Document :=
  if rest ≠ [] then .node .paragraph (.leaf (.text rest) inlines) more
  else match inlines with
    | .leaf .softBreak inlines | .leaf .hardBreak inlines => .node .paragraph inlines more
    | .nil => more
    | inlines => .node .paragraph inlines more

/-- The callout that a quote is, and what it holds. -/
def calloutOf : Document → Option (Callout × Document)
  | .node .paragraph (.leaf (.text text) inlines) more =>
    (strip Callout.all Callout.spelling text).map fun found =>
      (found.1, afterMarker found.2 inlines more)
  | _ => none

/-- What a cell shows after its status. -/
def afterStatus (rest : Text) (inlines : Document) : Document :=
  if rest ≠ [] then .leaf (.text (' ' :: rest)) inlines
  else match inlines with
    | .nil => .nil
    | inlines => .leaf (.text [' ']) inlines

/-- The status of a cell, and what else it shows. -/
def statusOf : Document → Option (StatusMark × Document)
  | .leaf (.text text) inlines =>
    (strip StatusMark.all StatusMark.spelling text).map fun found =>
      (found.1, afterStatus found.2 inlines)
  | _ => none

theorem size_afterMarker (rest : Text) (inlines more : Document) (text : Leaf) :
    (afterMarker rest inlines more).size ≤
      (Forest.node Tag.paragraph (.leaf text inlines) more).size := by
  unfold afterMarker
  split
  · exact Nat.le_refl _
  · split <;> simp only [Forest.size] <;> omega

theorem size_calloutOf {children body : Document} {callout : Callout}
    (found : calloutOf children = some (callout, body)) : body.size ≤ children.size := by
  unfold calloutOf at found
  split at found
  · next text inlines more =>
    obtain ⟨mark, _, same⟩ := Option.map_eq_some_iff.mp found
    cases same
    exact size_afterMarker _ inlines more _
  · cases found

theorem size_statusOf {children body : Document} {mark : StatusMark}
    (found : statusOf children = some (mark, body)) : body.size ≤ children.size := by
  unfold statusOf at found
  split at found
  · next text inlines =>
    obtain ⟨mark, _, same⟩ := Option.map_eq_some_iff.mp found
    cases same
    unfold afterStatus
    split
    · exact Nat.le_refl _
    · split <;> simp [Forest.size]
  · cases found

/-- The page of a document under a heading of a level, in or outside of a table. -/
def page (level : Nat) (table : TableState) (document : Document) : Page :=
  match document with
  | .nil => .nil
  | .leaf leaf rest => .leaf (.leaf leaf.shown) (page level table rest)
  | .node tag children rest =>
    if tag = .blockQuote then
      match _found : calloutOf children with
      | some (callout, body) =>
        .node (.callout callout) (page level table body) (page level table rest)
      | none => .node (.tag .blockQuote) (page level table children) (page level table rest)
    else if tag = .tableCell then
      let after := page level { table with column := table.column + 1 } rest
      let cell := Element.cell table.inHead table.alignments[table.column]?
      match _found : statusOf children with
      | some (mark, body) =>
        .node (cell (some mark)) (.leaf (.status mark) (page level table body)) after
      | none => .node (cell none) (page level table children) after
    else
      let inner := page level (table.start tag) children
      match tag.shown level with
      | some shown => .node (.tag shown) inner (page level table rest)
      | none => inner.append (page level table rest)
termination_by document.size
decreasing_by
  all_goals simp only [Forest.size]
  all_goals first
    | omega
    | have bound := size_calloutOf _found
      omega
    | have bound := size_statusOf _found
      omega

/-- A page on one line: the markup inside of lines, and the text. -/
def Page.inline : Page → Page
  | .nil => .nil
  | .leaf (.leaf own) rest =>
    match own.inline with
    | some own => .leaf (.leaf own) (inline rest)
    | none => inline rest
  | .leaf (.status _) rest => inline rest
  | .node (.tag tag) children rest =>
    if isInline tag.toEnd then .node (.tag tag) (inline children) (inline rest)
    else (inline children).append (inline rest)
  | .node _ children rest => (inline children).append (inline rest)

section Page

variable {level : Nat} {table : TableState} {children body rest : Document}

theorem page_quote_none (plain : calloutOf children = none) :
    page level table (.node .blockQuote children rest) =
      .node (.tag .blockQuote) (page level table children) (page level table rest) := by
  rw [page, if_pos rfl]
  split
  · next found => simp [plain] at found
  · rfl

theorem page_quote_some {callout : Callout} (found : calloutOf children = some (callout, body)) :
    page level table (.node .blockQuote children rest) =
      .node (.callout callout) (page level table body) (page level table rest) := by
  rw [page, if_pos rfl]
  split
  · next other => cases found.symm.trans other; rfl
  · next plain => simp [found] at plain

theorem page_cell_none (plain : statusOf children = none) :
    page level table (.node .tableCell children rest) =
      .node (.cell table.inHead table.alignments[table.column]? none) (page level table children)
        (page level { table with column := table.column + 1 } rest) := by
  rw [page, if_neg (by decide), if_pos rfl]
  dsimp only
  split
  · next found => simp [plain] at found
  · rfl

theorem page_cell_some {mark : StatusMark} (found : statusOf children = some (mark, body)) :
    page level table (.node .tableCell children rest) =
      .node (.cell table.inHead table.alignments[table.column]? (some mark))
        (.leaf (.status mark) (page level table body))
        (page level { table with column := table.column + 1 } rest) := by
  rw [page, if_neg (by decide), if_pos rfl]
  dsimp only
  split
  · next other => cases found.symm.trans other; rfl
  · next plain => simp [found] at plain

/-- Any other tag, if it is shown, is around what it holds. -/
theorem events_page_shown {tag : Tag} (quote : tag ≠ .blockQuote) (cell : tag ≠ .tableCell) :
    (page level table (.node tag children rest)).events =
      (tag.shown level).toList.map Event.start ++ (page level (table.start tag) children).events ++
        (tag.shown level).toList.map (fun shown => Event.stop shown.toEnd) ++
          (page level table rest).events := by
  rw [page, if_neg quote, if_neg cell]
  cases tag.shown level with
  | none => simp [Page.events, Forest.events_append]
  | some own => simp [Page.events, Forest.events, Element.opens, Element.closes]

end Page

end ProgressiveReviewer.Markdown
