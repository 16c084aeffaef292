import ProgressiveReviewer.Markdown.Pages

/-! The rewrite of a document's events gives the events of its page. -/

namespace ProgressiveReviewer.Markdown

open Library

/-- Where a part of a document stands, in or outside of a table. -/
inductive Place where
  | flow
  | table
  | row
  | cell
  deriving DecidableEq, Repr

namespace Place

/-- Where what a tag holds stands, if the tag can stand there: a table holds its head and rows,
these hold cells, and a cell holds no table. -/
def within : Place → Tag → Option Place
  | flow, .table _ => some table
  | flow, .tableHead | flow, .tableRow | flow, .tableCell => none
  | flow, _ => some flow
  | table, .tableHead | table, .tableRow => some row
  | table, _ => none
  | row, .tableCell => some cell
  | row, _ => none
  | cell, .table _ | cell, .tableHead | cell, .tableRow | cell, .tableCell => none
  | cell, _ => some cell

def holdsLeaves : Place → Bool
  | flow | cell => true
  | _ => false

/-- The rewrite is where a page says. -/
def Fits (place : Place) (page table : TableState) : Prop :=
  match place with
  | flow => page.inHead = false ∧ table.inHead = false
  | .table => table.alignments = page.alignments ∧ page.inHead = false ∧ table.inHead = false
  | row => table = page
  | cell => True

/-- What the rewrite keeps of where it was. -/
def Keeps (place : Place) (table after : TableState) : Prop :=
  match place with
  | flow => after.inHead = table.inHead
  | .table | row => after.alignments = table.alignments ∧ after.inHead = table.inHead
  | cell => after = table

theorem keeps_refl (place : Place) (table : TableState) : place.Keeps table table := by
  cases place <;> simp [Keeps]

theorem Keeps.trans {place : Place} {table middle after : TableState}
    (first : place.Keeps table middle) (second : place.Keeps middle after) :
    place.Keeps table after := by
  cases place <;> simp_all [Keeps]

end Place

/-- Every tag of a document stands where it can. -/
def Placed : Place → Document → Prop
  | _, .nil => True
  | place, .leaf _ rest => place.holdsLeaves = true ∧ Placed place rest
  | place, .node tag children rest =>
    (∃ inner, place.within tag = some inner ∧ Placed inner children) ∧ Placed place rest

@[simp] theorem Document.events_nil : Document.events .nil = [] := rfl

@[simp] theorem Document.events_leaf (leaf : Leaf) (rest : Document) :
    Document.events (.leaf leaf rest) = .leaf leaf :: rest.events := rfl

@[simp] theorem Document.events_node (tag : Tag) (children rest : Document) :
    Document.events (.node tag children rest) =
      .start tag :: (children.events ++ .stop tag.toEnd :: rest.events) := rfl

@[simp] theorem Page.events_nil : Page.events .nil = [] := rfl

@[simp] theorem Page.events_leaf (content : Content) (rest : Page) :
    Page.events (.leaf content rest) = content.event :: rest.events := rfl

@[simp] theorem Page.events_node (element : Element) (children rest : Page) :
    Page.events (.node element children rest) =
      element.opens :: (children.events ++ element.closes :: rest.events) := rfl

@[simp] theorem Page.events_append (page other : Page) :
    Page.events (page.append other) = page.events ++ other.events :=
  Forest.events_append _ _ _ page other

namespace Rewrite

variable (rewrite : Rewrite)

/-- The rewrite, at other events, with more written. -/
def at_ (input output : List Event) : Rewrite :=
  { rewrite with input, output := rewrite.output ++ output }

theorem run_cons (headingShift : Nat) (event : Event) (input output : List Event)
    (quotes links : List Bool) (table : TableState) :
    (mk headingShift (event :: input) output quotes links table).run =
      ((mk headingShift input output quotes links table).take event).run := by
  rw [run]

/-- What the input of a quote begins with decides whether it is a callout. -/
theorem run_quote_none {children : Document} (plain : calloutOf children = none)
    (more : List Event) : (rewrite.at_ (children.events ++ .stop .blockQuote :: more) []).quote =
      { rewrite.at_ (children.events ++ .stop .blockQuote :: more) [.start .blockQuote] with
        quotes := false :: rewrite.quotes } := by
  have none : (rewrite.at_ (children.events ++ .stop .blockQuote :: more) []).calloutMark = none := by
    unfold calloutMark
    split_ifs with paragraph
    · cases children with
      | nil => simp [peek, at_] at paragraph
      | leaf leaf rest => simp [peek, at_] at paragraph
      | node tag inner rest =>
        have own : tag = .paragraph := by simpa [peek, at_] using paragraph
        subst own
        cases inner with
        | nil => rfl
        | node tag inner inlines => rfl
        | leaf leaf inlines =>
          cases leaf with
          | text text =>
            rw [calloutOf, Option.map_eq_none_iff] at plain
            exact plain
          | _ => rfl
    · rfl
  rw [quote, none]
  simp [push, at_]

theorem run_quote_some {children body : Document} {callout : Callout}
    (found : calloutOf children = some (callout, body)) (more : List Event) :
    (rewrite.at_ (children.events ++ .stop .blockQuote :: more) []).quote.run =
      ({ rewrite.at_ (body.events ++ Event.stop .blockQuote :: more) [.leaf (.html callout.html)] with
        quotes := true :: rewrite.quotes }).run := by
  unfold calloutOf at found
  split at found
  · next text inlines after =>
    obtain ⟨⟨mark, rest⟩, stripped, same⟩ := Option.map_eq_some_iff.mp found
    cases same
    have marks : (rewrite.at_ (Document.events (.node .paragraph (.leaf (.text text) inlines) after) ++
        Event.stop .blockQuote :: more) []).calloutMark = some (mark, rest) := by
      simp [calloutMark, peek, at_, marked, stripped]
    rw [quote, marks]
    by_cases empty : rest = []
    · subst empty
      simp only [ne_eq, not_true_eq_false, if_false, afterMarker]
      cases inlines with
      | nil => simp [dropMarker, peek, at_, pop, push, Tag.toEnd]
      | node tag inner rest =>
        simp [dropMarker, peek, at_, pop, push, run_cons, take, start]
      | leaf leaf rest =>
        cases leaf <;> simp [dropMarker, peek, at_, pop, push, run_cons, take, start]
    · simp [empty, afterMarker, at_, pop, push, run_cons, take, start]
  · cases found

/-- What opens the cell that the rewrite is at. -/
def cellOpening (status : Option StatusMark) : Event :=
  .leaf (.html (cellHtml rewrite.table.inHead rewrite.table.alignments[rewrite.table.column]? status))

/-- What a cell begins with decides whether it has a status. -/
theorem cell_none {children : Document} (plain : statusOf children = none) (more : List Event) :
    (rewrite.at_ (children.events ++ .stop .tableCell :: more) []).cell =
      rewrite.at_ (children.events ++ .stop .tableCell :: more) [rewrite.cellOpening none] := by
  have none : (rewrite.at_ (children.events ++ .stop .tableCell :: more) []).marked StatusMark.all
      StatusMark.spelling 0 = none := by
    cases children with
    | nil => rfl
    | node tag inner rest => rfl
    | leaf leaf rest =>
      cases leaf with
      | text text =>
        rw [statusOf, Option.map_eq_none_iff] at plain
        exact plain
      | _ => rfl
  simp only [cell, none]
  simp [push, at_, cellOpening]

theorem run_cell_some {children body : Document} {mark : StatusMark}
    (found : statusOf children = some (mark, body)) (more : List Event) :
    (rewrite.at_ (children.events ++ .stop .tableCell :: more) []).cell.run =
      (rewrite.at_ (body.events ++ .stop .tableCell :: more)
        [rewrite.cellOpening (some mark), .leaf (.html mark.html)]).run := by
  unfold statusOf at found
  split at found
  · next text inlines =>
    obtain ⟨⟨mark, rest⟩, stripped, same⟩ := Option.map_eq_some_iff.mp found
    cases same
    have marks : (rewrite.at_ (Document.events (.leaf (.text text) inlines) ++
        Event.stop .tableCell :: more) []).marked StatusMark.all StatusMark.spelling 0 =
          some (mark, rest) := by
      simp [peek, at_, marked, stripped]
    simp only [cell, marks]
    by_cases empty : rest = []
    · subst empty
      simp only [ne_eq, not_true_eq_false, if_false, afterStatus]
      cases inlines <;> simp [peek, at_, pop, push, run_cons, take, cellOpening]
    · simp [empty, afterStatus, at_, pop, push, run_cons, take, cellOpening]
  · cases found

end Rewrite

theorem placed_afterMarker {place : Place} {rest : Text} {inlines more : Document} {text : Leaf}
    (placed : Placed place (.node .paragraph (.leaf text inlines) more)) :
    Placed place (afterMarker rest inlines more) := by
  obtain ⟨⟨inner, within, leaves, inlines⟩, more⟩ := placed
  unfold afterMarker
  split
  · exact ⟨⟨inner, within, leaves, inlines⟩, more⟩
  · split
    · exact ⟨⟨inner, within, inlines.2⟩, more⟩
    · exact ⟨⟨inner, within, inlines.2⟩, more⟩
    · exact more
    · exact ⟨⟨inner, within, inlines⟩, more⟩

theorem placed_calloutOf {place : Place} {children body : Document} {callout : Callout}
    (placed : Placed place children) (found : calloutOf children = some (callout, body)) :
    Placed place body := by
  unfold calloutOf at found
  split at found
  · obtain ⟨mark, _, same⟩ := Option.map_eq_some_iff.mp found
    cases same
    exact placed_afterMarker placed
  · cases found

theorem placed_statusOf {place : Place} {children body : Document} {mark : StatusMark}
    (placed : Placed place children) (found : statusOf children = some (mark, body)) :
    Placed place body := by
  unfold statusOf at found
  split at found
  · obtain ⟨mark, _, same⟩ := Option.map_eq_some_iff.mp found
    cases same
    unfold afterStatus
    split
    · exact placed
    · split
      · trivial
      · exact placed
  · cases found

/-- Whether a link stays one, for a link. -/
def Tag.kept : Tag → List Bool
  | link target => [decide (target.linkType = .email) || isWebLink target.destUrl]
  | _ => []

/-- Where the rewrite is after a tag. -/
def TableState.stop (table : TableState) : Tag → TableState
  | .tableHead => { table with inHead := false }
  | _ => table

namespace Rewrite

variable (rewrite : Rewrite)

theorem take_start {tag : Tag} (quote : tag ≠ .blockQuote) (cell : tag ≠ .tableCell) :
    rewrite.take (.start tag) = { rewrite with
      output := rewrite.output ++ (tag.shown rewrite.headingShift).toList.map Event.start
      links := tag.kept ++ rewrite.links
      table := rewrite.table.start tag } := by
  cases tag with
  | blockQuote => exact absurd rfl quote
  | tableCell => exact absurd rfl cell
  | image target =>
    simp [take, start, Tag.shown, Tag.kept, TableState.start]
  | link target =>
    simp only [take, start, Tag.shown, Tag.kept, TableState.start]
    split_ifs with kept
    · simp [push, kept]
    · simp [kept]
  | _ => rfl

theorem take_stop {tag : Tag} (quote : tag ≠ .blockQuote) (cell : tag ≠ .tableCell)
    {links : List Bool} (open_ : rewrite.links = tag.kept ++ links) :
    rewrite.take (.stop tag.toEnd) = { rewrite with
      output := rewrite.output ++
        (tag.shown rewrite.headingShift).toList.map fun shown => Event.stop shown.toEnd
      links
      table := rewrite.table.stop tag } := by
  cases tag with
  | blockQuote => exact absurd rfl quote
  | tableCell => exact absurd rfl cell
  | image target =>
    simp only [Tag.kept, List.nil_append] at open_
    simp [take, stop, Tag.toEnd, Tag.shown, TableState.stop, open_.symm]
  | link target =>
    simp only [Tag.kept, List.singleton_append] at open_
    simp only [take, stop, Tag.toEnd, Tag.shown, TableState.stop, open_, List.head?_cons,
      List.tail_cons, Option.some.injEq]
    split_ifs with kept
    · simp [push]
    · simp
  | _ =>
    simp only [Tag.kept, List.nil_append] at open_
    subst open_
    rfl

/-- The rewrite of a document's events gives those of its page, and leaves the quotes and links as
they were. -/
def Gives (place : Place) (context : TableState) (document : Document) : Prop :=
  ∀ (rewrite : Rewrite) (more : List Event), place.Fits context rewrite.table →
    ∃ after, place.Keeps rewrite.table after ∧ (rewrite.at_ (document.events ++ more) []).run =
      ({ rewrite.at_ more (page rewrite.headingShift context document).events with
        table := after }).run

/-- What opens around a part of a document, and closes after it. -/
structure Frame (rewrite opened : Rewrite) (opens closes : List Event) (tag : Tag)
    (place inner : Place) (innerContext restContext : TableState) : Prop where
  output : opened.output = rewrite.output ++ opens
  headingShift : opened.headingShift = rewrite.headingShift
  fits : inner.Fits innerContext opened.table
  close : ∀ (table : TableState) (more output : List Event), inner.Keeps opened.table table →
    ∃ after, place.Fits restContext after ∧ place.Keeps rewrite.table after ∧
      ({ opened.at_ (.stop tag.toEnd :: more) output with table }).run =
        ({ rewrite.at_ more (opens ++ output ++ closes) with table := after }).run

theorem Frame.run {rewrite opened : Rewrite} {opens closes : List Event} {tag : Tag}
    {place inner : Place} {innerContext restContext : TableState}
    (frame : Frame rewrite opened opens closes tag place inner innerContext restContext)
    {body rest : Document} (gives : Gives inner innerContext body)
    (givesRest : Gives place restContext rest) (more : List Event) :
    ∃ after, place.Keeps rewrite.table after ∧
      (opened.at_ (body.events ++ .stop tag.toEnd :: (rest.events ++ more)) []).run =
        ({ rewrite.at_ more (opens ++ (page rewrite.headingShift innerContext body).events ++ closes ++
          (page rewrite.headingShift restContext rest).events) with table := after }).run := by
  obtain ⟨table, keeps, run⟩ := gives opened (.stop tag.toEnd :: (rest.events ++ more)) frame.fits
  obtain ⟨after, fits, kept, closed⟩ := frame.close table (rest.events ++ more) _ keeps
  obtain ⟨last, keepsRest, runRest⟩ := givesRest
    { rewrite with
      output := rewrite.output ++ (opens ++ (page rewrite.headingShift innerContext body).events ++
        closes)
      table := after } more fits
  refine ⟨last, kept.trans keepsRest, ?_⟩
  rw [run, closed, frame.headingShift]
  have moved : ({ rewrite.at_ (rest.events ++ more) (opens ++
      (page rewrite.headingShift innerContext body).events ++ closes) with table := after }) =
      Rewrite.at_ { rewrite with
        output := rewrite.output ++ (opens ++
          (page rewrite.headingShift innerContext body).events ++ closes)
        table := after } (rest.events ++ more) [] := by
    simp [at_]
  rw [moved, runRest]
  simp [at_]

end Rewrite

/-- Where text flows, or in a cell, a place stays what it is. -/
theorem Place.fits_of_keeps {place : Place} {context table after : TableState}
    (fits : place.Fits context table) (keeps : place.Keeps table after) (row : place ≠ .row) :
    place.Fits context after := by
  cases place <;> simp_all [Place.Fits, Place.Keeps]

/-- A tag that is neither a quote nor a cell opens and closes what it holds. -/
theorem frame_shown {rewrite : Rewrite} {tag : Tag} {place inner : Place} {context : TableState}
    (quote : tag ≠ .blockQuote) (cell : tag ≠ .tableCell) (within : place.within tag = some inner)
    (fits : place.Fits context rewrite.table) :
    Rewrite.Frame rewrite { rewrite with
      output := rewrite.output ++ (tag.shown rewrite.headingShift).toList.map Event.start
      links := tag.kept ++ rewrite.links
      table := rewrite.table.start tag }
      ((tag.shown rewrite.headingShift).toList.map Event.start)
      ((tag.shown rewrite.headingShift).toList.map fun shown => Event.stop shown.toEnd) tag place inner
      (context.start tag) context := by
  refine ⟨rfl, rfl, ?_, fun table more output keeps => ⟨table.stop tag, ?_, ?_, ?_⟩⟩
  · cases place <;> cases tag <;> simp_all [Place.within, Place.Fits, TableState.start] <;>
      subst within <;> simp_all
  · cases place <;> cases tag <;>
      simp_all [Place.within, Place.Fits, Place.Keeps, TableState.start, TableState.stop] <;>
      subst within <;> simp_all
  · cases place <;> cases tag <;>
      simp_all [Place.within, Place.Fits, Place.Keeps, TableState.start, TableState.stop] <;>
      subst within <;> simp_all
  · simp only [Rewrite.at_, Rewrite.run_cons]
    rw [Rewrite.take_stop _ quote cell rfl]
    simp

/-- A quote or a callout, by what stands for it on the page. -/
theorem frame_quote {rewrite : Rewrite} {place : Place} {context : TableState} {closes : Event}
    (callout : Bool) (opens : Event) (row : place ≠ .row) (fits : place.Fits context rewrite.table)
    (stops : (if callout then Event.leaf (.html closingDiv) else .stop .blockQuote) = closes) :
    Rewrite.Frame rewrite { rewrite with
      output := rewrite.output ++ [opens]
      quotes := callout :: rewrite.quotes } [opens] [closes] .blockQuote place place context
      context := by
  refine ⟨rfl, rfl, fits, fun table more output keeps => ⟨table,
    Place.fits_of_keeps fits keeps row, keeps, ?_⟩⟩
  subst stops
  simp only [Rewrite.at_, Rewrite.run_cons, Tag.toEnd, Rewrite.take, Rewrite.stop]
  cases callout <;> simp [Rewrite.push]

theorem frame_cell {rewrite : Rewrite} {context : TableState} (opens : List Event)
    (fits : Place.row.Fits context rewrite.table) :
    Rewrite.Frame rewrite { rewrite with output := rewrite.output ++ opens } opens
      [.stop .tableCell] .tableCell .row .cell context
      { context with column := context.column + 1 } := by
  refine ⟨rfl, rfl, trivial, fun table more output keeps =>
    ⟨{ table with column := table.column + 1 }, ?_, ?_, ?_⟩⟩
  · have same : table = rewrite.table := keeps
    have here : rewrite.table = context := fits
    rw [same, here]
    rfl
  · have same : table = rewrite.table := keeps
    rw [same]
    exact ⟨rfl, rfl⟩
  · simp [Rewrite.at_, Rewrite.run_cons, Tag.toEnd, Rewrite.take, Rewrite.stop, Rewrite.push]

theorem gives_nil (place : Place) (context : TableState) : Rewrite.Gives place context .nil := by
  intro rewrite more fits
  refine ⟨rewrite.table, place.keeps_refl _, ?_⟩
  rw [page]
  rfl

theorem gives_leaf {place : Place} {context : TableState} {leaf : Leaf} {rest : Document}
    (gives : Rewrite.Gives place context rest) :
    Rewrite.Gives place context (.leaf leaf rest) := by
  intro rewrite more fits
  obtain ⟨after, keeps, run⟩ := gives
    { rewrite with output := rewrite.output ++ [.leaf leaf.shown] } more fits
  refine ⟨after, keeps, ?_⟩
  rw [page]
  simp only [Rewrite.at_, Document.events_leaf, List.cons_append, Rewrite.run_cons] at run ⊢
  have took : Rewrite.take { rewrite with
      input := rest.events ++ more
      output := rewrite.output ++ [] } (.leaf leaf) = { rewrite with
        input := rest.events ++ more
        output := rewrite.output ++ [.leaf leaf.shown] ++ [] } := by
    cases leaf <;> simp [Rewrite.take, Rewrite.push, Leaf.shown]
  rw [took, run]
  simp [Content.event]

section Node

variable {place inner : Place} {context : TableState} {tag : Tag} {children rest : Document}
  {rewrite : Rewrite} (more : List Event)

/-- The rewrite of a node starts with its tag. -/
theorem run_node : (rewrite.at_ (Document.events (.node tag children rest) ++ more) []).run =
    ((rewrite.at_ (children.events ++ .stop tag.toEnd :: (rest.events ++ more)) []).take
      (.start tag)).run := by
  simp [Rewrite.at_, Rewrite.run_cons]

theorem gives_quote (row : place ≠ .row)
    (gives : ∀ body : Document, Placed place body → body.size ≤ children.size →
      Rewrite.Gives place context body) (placed : Placed place children)
    (givesRest : Rewrite.Gives place context rest) :
    Rewrite.Gives place context (.node .blockQuote children rest) := by
  intro rewrite more fits
  rw [run_node]
  cases found : calloutOf children with
  | none =>
    obtain ⟨after, keeps, run⟩ := (frame_quote false (.start .blockQuote) row fits rfl).run (gives children placed (Nat.le_refl _)) givesRest more
    refine ⟨after, keeps, ?_⟩
    rw [page_quote_none found]
    have quote := congrArg Rewrite.run (rewrite.run_quote_none found (rest.events ++ more))
    refine (quote.trans ?_).trans (run.trans ?_)
    · simp [Rewrite.at_, Tag.toEnd]
    · simp [Rewrite.at_, Element.opens, Element.closes, Tag.toEnd]
  | some found' =>
    obtain ⟨callout, body⟩ := found'
    obtain ⟨after, keeps, run⟩ := (frame_quote true (.leaf (.html callout.html)) row fits rfl).run
      (gives body (placed_calloutOf placed found) (size_calloutOf found)) givesRest more
    refine ⟨after, keeps, ?_⟩
    rw [page_quote_some found]
    refine ((rewrite.run_quote_some found (rest.events ++ more)).trans ?_).trans (run.trans ?_)
    · simp [Rewrite.at_, Tag.toEnd]
    · simp [Rewrite.at_, Element.opens, Element.closes]

theorem gives_cell
    (gives : ∀ body : Document, Placed .cell body → body.size ≤ children.size →
      Rewrite.Gives .cell context body) (placed : Placed .cell children)
    (givesRest : Rewrite.Gives .row { context with column := context.column + 1 } rest) :
    Rewrite.Gives .row context (.node .tableCell children rest) := by
  intro rewrite more fits
  have here : rewrite.table = context := fits
  rw [run_node]
  cases found : statusOf children with
  | none =>
    obtain ⟨after, keeps, run⟩ := (frame_cell [rewrite.cellOpening none] fits).run
      (gives children placed (Nat.le_refl _)) givesRest more
    refine ⟨after, keeps, ?_⟩
    rw [page_cell_none found]
    have cell := congrArg Rewrite.run (rewrite.cell_none found (rest.events ++ more))
    refine (cell.trans ?_).trans (run.trans ?_)
    · simp [Rewrite.at_, Tag.toEnd]
    · simp [Rewrite.at_, Element.opens, Element.closes, Rewrite.cellOpening, here]
  | some found' =>
    obtain ⟨mark, body⟩ := found'
    obtain ⟨after, keeps, run⟩ := (frame_cell
      [rewrite.cellOpening (some mark), .leaf (.html mark.html)] fits).run
        (gives body (placed_statusOf placed found) (size_statusOf found)) givesRest more
    refine ⟨after, keeps, ?_⟩
    rw [page_cell_some found]
    refine ((rewrite.run_cell_some found (rest.events ++ more)).trans ?_).trans (run.trans ?_)
    · simp [Rewrite.at_, Tag.toEnd]
    · simp [Rewrite.at_, Element.opens, Element.closes, Content.event, Rewrite.cellOpening, here]

theorem gives_shown (quote : tag ≠ .blockQuote) (cell : tag ≠ .tableCell)
    (within : place.within tag = some inner)
    (gives : Rewrite.Gives inner (context.start tag) children)
    (givesRest : Rewrite.Gives place context rest) :
    Rewrite.Gives place context (.node tag children rest) := by
  intro rewrite more fits
  obtain ⟨after, keeps, run⟩ := (frame_shown quote cell within fits).run gives givesRest more
  refine ⟨after, keeps, ?_⟩
  rw [run_node, events_page_shown quote cell]
  refine Eq.trans ?_ run
  rw [Rewrite.take_start _ quote cell]
  simp [Rewrite.at_]

end Node

/-- The rewrite of the events of any document gives the events of its page. -/
theorem gives_page {place : Place} {document : Document} (placed : Placed place document)
    (context : TableState) : Rewrite.Gives place context document := by
  induction is : document.size using Nat.strong_induction_on generalizing place document context with
  | _ size ih =>
    cases document with
    | nil => exact gives_nil place context
    | leaf leaf rest =>
      exact gives_leaf (ih rest.size (by simp [← is, Forest.size]) placed.2 context rfl)
    | node tag children rest =>
      obtain ⟨⟨inner, within, held⟩, after⟩ := placed
      have under : children.size < size ∧ rest.size < size := by
        simp only [← is, Forest.size]
        omega
      have givesRest (context : TableState) := ih rest.size under.2 after context rfl
      have gives (context : TableState) (body : Document) (placed : Placed inner body)
          (bound : body.size ≤ children.size) :=
        ih body.size (Nat.lt_of_le_of_lt bound under.1) placed context rfl
      by_cases quote : tag = .blockQuote
      · subst quote
        have same : inner = place ∧ place ≠ .row := by
          cases place <;> cases within <;> simp
        obtain ⟨rfl, row⟩ := same
        exact gives_quote row (gives context) held (givesRest context)
      · by_cases cell : tag = .tableCell
        · subst cell
          have same : place = .row ∧ inner = .cell := by
            cases place <;> cases within
            exact ⟨rfl, rfl⟩
          obtain ⟨rfl, rfl⟩ := same
          exact gives_cell (gives context) held (givesRest _)
        · exact gives_shown quote cell within (gives _ children held (Nat.le_refl _))
            (givesRest context)

/-- The events of a page on one line are what is left of its events. -/
theorem events_inline (shown : Page) : shown.events.filterMap Event.inline = shown.inline.events := by
  induction shown with
  | nil => rfl
  | leaf content rest ih =>
    cases content with
    | status mark =>
      simpa [Page.inline, Content.event, List.filterMap_cons, Event.inline, Leaf.inline] using ih
    | leaf own =>
      simp only [Page.events_leaf, Page.inline, Content.event, List.filterMap_cons, Event.inline, ih]
      cases own.inline <;> rfl
  | node element children rest ihChildren ihRest =>
    cases element with
    | tag own =>
      simp only [Page.events_node, Page.inline, Element.opens, Element.closes, List.filterMap_cons,
        List.filterMap_append, Event.inline, ihChildren, ihRest]
      split_ifs <;> simp [Element.opens, Element.closes]
    | callout own =>
      simp [Page.inline, Element.opens, Element.closes, List.filterMap_cons, Event.inline,
        Leaf.inline, ihChildren, ihRest]
    | cell header alignment status =>
      simp [Page.inline, Element.opens, Element.closes, List.filterMap_cons, Event.inline,
        Leaf.inline, isInline, ihChildren, ihRest]

/-- For every document, rewriting the events that the parser gives one after the other comes to
walking through the page that the document's tree gives: quotes that open with a marker are callouts,
cells take their element, alignment and status from where they stand, and links and images that do
not stay leave what they hold. What is left of them for one line is that page without its blocks. -/
theorem run_document {document : Document} (placed : Placed .flow document) (level : Nat) :
    (Rewrite.new level document.events).run.output =
        (page level ⟨[], false, 0⟩ document).events ∧
      (Rewrite.new level document.events).run.output.filterMap Event.inline =
        (page level ⟨[], false, 0⟩ document).inline.events := by
  rw [← events_inline]
  suffices same : (Rewrite.new level document.events).run.output =
      (page level ⟨[], false, 0⟩ document).events from ⟨same, congrArg _ same⟩
  obtain ⟨after, -, run⟩ := gives_page placed ⟨[], false, 0⟩ (Rewrite.new level []) [] ⟨rfl, rfl⟩
  rw [List.append_nil] at run
  have whole : (Rewrite.new level document.events).run = _ := run
  rw [whole, Rewrite.run]
  rfl

/-- A quote that opens with a marker. -/
def markedDocument : Document :=
  .node .blockQuote (.node .paragraph (.leaf (.text "[!tip] Run.".toList) .nil) .nil) .nil

theorem run_document_marked : (Rewrite.new 2 markedDocument.events).run.output =
    [.leaf (.html Callout.tip.html), .start .paragraph, .leaf (.text "Run.".toList),
      .stop .paragraph, .leaf (.html closingDiv)] := by
  have placed : Placed .flow markedDocument :=
    ⟨⟨.flow, rfl, ⟨.flow, rfl, rfl, trivial⟩, trivial⟩, trivial⟩
  have stripped : strip Callout.all Callout.spelling "[!tip] Run.".toList =
      some (.tip, "Run.".toList) := by
    decide +kernel
  have found : calloutOf (.node .paragraph (.leaf (.text "[!tip] Run.".toList) .nil) .nil) =
      some (.tip, .node .paragraph (.leaf (.text "Run.".toList) .nil) .nil) := by
    rw [calloutOf, stripped]
    rfl
  rw [(run_document placed 2).1, markedDocument, page_quote_some found]
  simp [page, Tag.shown, Leaf.shown, Element.opens, Element.closes, Content.event, Tag.toEnd]

end ProgressiveReviewer.Markdown
