import ProgressiveReviewer.Guard.Shell

/-! The guard reads the commands of the grammar, as their words, and no others. -/

namespace ProgressiveReviewer.Guard

open Library
open Explore (isControl)

namespace Lexer

/-- With more text in the word being read. -/
def read (lexer : Lexer) (text : List Char) : Lexer :=
  { lexer with word := some { lexer.started with text := lexer.started.text ++ text } }

@[simp] theorem read_read (lexer : Lexer) (text more : List Char) :
    (lexer.read text).read more = lexer.read (text ++ more) := by
  simp [read, started]

theorem push_eq_read (lexer : Lexer) (character : Char) :
    lexer.push character = lexer.read [character] := rfl

theorem read_nil {lexer : Lexer} (inWord : lexer.word.isSome) : lexer.read [] = lexer := by
  obtain ⟨word, own⟩ := Option.isSome_iff_exists.mp inWord
  cases lexer
  simp_all [read, started]

theorem insideSingle_text (lexer : Lexer) (text later : List Char)
    (inWord : lexer.word.isSome)
    (fits : ∀ character ∈ text, isControl character = false ∧ character ≠ '\'') :
    lexer.insideSingle (text ++ '\'' :: later) = .ok (lexer.read text, later) := by
  induction text generalizing lexer with
  | nil =>
    rw [List.nil_append, insideSingle, if_neg (by decide), if_pos rfl, read_nil inWord]
  | cons character text ih =>
    obtain ⟨control, quote⟩ := fits character List.mem_cons_self
    rw [List.cons_append, insideSingle, if_neg (by simp [control]), if_neg quote,
      ih _ rfl fun other mem => fits other (List.mem_cons_of_mem _ mem), push_eq_read, read_read]
    rfl

theorem insideSingle_ok {lexer next : Lexer} {chars later : List Char}
    (inWord : lexer.word.isSome) (ran : lexer.insideSingle chars = .ok (next, later)) :
    ∃ text, chars = text ++ '\'' :: later ∧ next = lexer.read text ∧
      ∀ character ∈ text, isControl character = false ∧ character ≠ '\'' := by
  fun_induction insideSingle lexer chars with
  | case1 => cases ran
  | case2 => cases ran
  | case3 lexer rest control =>
    cases ran
    exact ⟨[], by simp, (read_nil inWord).symm, by simp⟩
  | case4 lexer character rest control quote ih =>
    obtain ⟨text, rfl, rfl, fits⟩ := ih rfl ran
    refine ⟨character :: text, rfl, by rw [push_eq_read, read_read]; rfl, ?_⟩
    rintro other (_ | ⟨_, mem⟩)
    · exact ⟨by simpa using control, quote⟩
    · exact fits other mem

theorem insideDouble_close (lexer : Lexer) (later : List Char) :
    lexer.insideDouble ('"' :: later) = .ok (lexer, later) := by
  rw [insideDouble.eq_def]
  rfl

theorem insideDouble_dollar (lexer : Lexer) (later : List Char) :
    lexer.insideDouble ('$' :: '"' :: later) = (lexer.push '$').insideDouble ('"' :: later) := by
  rw [insideDouble.eq_def]
  rfl

theorem insideDouble_part (lexer : Lexer) {part : Inside} (fits : part.Fits)
    (later : List Char) :
    lexer.insideDouble (part.source ++ later) = (lexer.read part.meaning).insideDouble later := by
  have backslash : isControl '\\' = false := by decide
  cases part with
  | plain character =>
    obtain ⟨control, free⟩ := fits
    simp only [escapable, List.mem_cons, List.not_mem_nil, or_false, not_or] at free
    simp only [Inside.source, List.singleton_append]
    rw [insideDouble.eq_def]
    simp [control, free, push_eq_read, Inside.meaning]
  | escaped character =>
    have control : isControl character = false := by
      simp only [Inside.Fits, escapable, List.mem_cons, List.not_mem_nil, or_false] at fits
      rcases fits with rfl | rfl | rfl | rfl <;> decide
    have listed : character ∈ escapable := fits
    simp only [Inside.source, List.cons_append, List.nil_append]
    rw [insideDouble.eq_def]
    simp [backslash, control, listed, push_eq_read, Inside.meaning]
  | kept character =>
    obtain ⟨control, free⟩ := fits
    simp only [Inside.source, List.cons_append, List.nil_append]
    rw [insideDouble.eq_def]
    simp [backslash, control, free, push_eq_read, Inside.meaning]

theorem insideDouble_text (lexer : Lexer) (inside : List Inside) (dollar : Bool)
    (later : List Char) (inWord : lexer.word.isSome) (fits : ∀ part ∈ inside, part.Fits) :
    lexer.insideDouble (inside.flatMap Inside.source ++ ((if dollar then ['$'] else []) ++
        '"' :: later)) =
      .ok (lexer.read (inside.flatMap Inside.meaning ++ if dollar then ['$'] else []), later) := by
  induction inside generalizing lexer with
  | nil =>
    cases dollar with
    | false => simp [insideDouble_close, read_nil inWord]
    | true => simp [insideDouble_dollar, insideDouble_close, push_eq_read]
  | cons part inside ih =>
    rw [List.flatMap_cons, List.append_assoc, insideDouble_part lexer (fits part List.mem_cons_self),
      ih _ rfl fun other mem => fits other (List.mem_cons_of_mem _ mem), read_read,
      List.flatMap_cons, List.append_assoc]

/-- The text in double quotes at the start of `chars`, and the lexer after it. -/
def ReadsDouble (lexer : Lexer) (chars : List Char) (next : Lexer) (later : List Char) : Prop :=
  ∃ (inside : List Inside) (dollar : Bool), (∀ part ∈ inside, part.Fits) ∧
    chars = inside.flatMap Inside.source ++ ((if dollar then ['$'] else []) ++ '"' :: later) ∧
    next = lexer.read (inside.flatMap Inside.meaning ++ if dollar then ['$'] else [])

theorem ReadsDouble.part {lexer next : Lexer} {chars later : List Char} (part : Inside)
    (fits : part.Fits) (rest : ReadsDouble (lexer.read part.meaning) chars next later) :
    ReadsDouble lexer (part.source ++ chars) next later := by
  obtain ⟨inside, dollar, all, rfl, rfl⟩ := rest
  exact ⟨part :: inside, dollar, List.forall_mem_cons.mpr ⟨fits, all⟩, by simp, by simp⟩

theorem insideDouble_ok {lexer next : Lexer} {chars later : List Char}
    (inWord : lexer.word.isSome) (ran : lexer.insideDouble chars = .ok (next, later)) :
    ReadsDouble lexer chars next later := by
  fun_induction insideDouble lexer chars
  case case3 rest control =>
    cases ran
    exact ⟨[], false, by simp, rfl, (read_nil inWord).symm⟩
  case case6 escaped rest _ listed _ _ ih =>
    exact ReadsDouble.part (.escaped escaped) listed (ih rfl ran)
  case case7 escaped rest control free _ _ ih =>
    rw [push_eq_read, push_eq_read, read_read] at ih ran
    exact ReadsDouble.part (.kept escaped) ⟨by simpa using control, free⟩ (ih rfl ran)
  case case8 lexer character rest _ _ _ dollar ih =>
    obtain ⟨rfl, quote⟩ := dollar
    obtain ⟨tail, rfl⟩ := List.head?_eq_some_iff.mp quote
    rw [insideDouble_close] at ran
    cases ran
    exact ⟨[], true, by simp, rfl, rfl⟩
  case case10 lexer character rest control quote backslash dollar form ih =>
    refine ReadsDouble.part (.plain character) ⟨by simpa using control, ?_⟩ (ih rfl ran)
    simp only [escapable, List.mem_cons, List.not_mem_nil, or_false]
    tauto
  all_goals cases ran

/-- The lexer inside a word whose parts up to here are `pieces`, or between words. -/
def within (commands : List (List Word)) (words : List Word) (pieces : List Piece) : Lexer :=
  ⟨commands, words, if pieces.isEmpty then none else some (wordOf pieces),
    pieces.any Piece.quotes⟩

variable {commands : List (List Word)} {words : List Word} {pieces : List Piece}

theorem within_started : (within commands words pieces).started = wordOf pieces := by
  cases pieces <;> rfl

theorem within_concat (piece : Piece) : within commands words (pieces ++ [piece]) =
    ⟨commands, words,
      some ⟨(wordOf pieces).text ++ piece.meaning, (wordOf pieces).globs || piece.globs⟩,
      pieces.any Piece.quotes || piece.quotes⟩ := by
  simp [within, wordOf]

theorem within_nil_endWord :
    (within commands words []).endWord = within commands words [] := by
  simp [within, endWord]

theorem within_endWord (spelling : Spelling) :
    (within commands words spelling.pieces).endWord =
      within commands (words ++ [wordOf spelling.pieces]) [] := by
  have written : spelling.pieces.isEmpty = false := by simpa using spelling.written
  simp [within, endWord, written]

theorem within_read (piece : Piece) (bare : piece.globs = false) (quoted : Bool)
    (marked : quoted = (pieces.any Piece.quotes || piece.quotes)) :
    { within commands words pieces with quoted := quoted }.read piece.meaning =
      within commands words (pieces ++ [piece]) := by
  have started : (within commands words pieces).started = wordOf pieces := within_started
  simp only [Lexer.started] at started
  rw [within_concat, bare, marked, Bool.or_false]
  simp only [read, Lexer.started, started]
  rfl

/-- A part that fits is read as it means. -/
theorem unquoted_piece {piece : Piece} (fits : piece.Fits pieces) {first : Char}
    {chars later : List Char} (written : first :: chars = piece.source ++ later) :
    (within commands words pieces).unquoted first chars =
      .ok (within commands words (pieces ++ [piece]), later) := by
  have plainly : ∀ piece : Piece, piece.globs = false → piece.quotes = false →
      (within commands words pieces).read piece.meaning =
        within commands words (pieces ++ [piece]) := by
    intro piece bare unquoted
    rw [← within_read piece bare (pieces.any Piece.quotes) (by simp [unquoted])]
    rfl
  have quoting : ∀ piece : Piece, piece.quotes = true → piece.globs = false →
      { within commands words pieces with quoted := true }.read piece.meaning =
        within commands words (pieces ++ [piece]) := by
    intro piece quoted bare
    exact within_read piece bare true (by simp [quoted])
  cases piece with
  | plain character =>
    obtain ⟨rfl, rfl⟩ : first = character ∧ chars = later := by simpa [Piece.source] using written
    obtain ⟨control, free⟩ := fits
    have notForm : first ∉ forms := fun mem => free (by simp [special, mem])
    have notGlob : first ∉ globCharacters := fun mem => free (by simp [special, mem])
    have notRedirect : first ≠ '>' := fun same => notForm (same ▸ by decide)
    have notHome : first ≠ '~' := fun same => notGlob (same ▸ by decide)
    simp only [special, List.cons_append, List.nil_append, List.mem_cons, not_or] at free
    simp only [unquoted, free, notForm, notGlob, notRedirect, notHome, false_and, or_self,
      if_false, nonControl, control, Bool.false_eq_true, Except.map]
    rw [← plainly (.plain first) rfl rfl]
    rfl
  | tilde =>
    obtain ⟨rfl, rfl⟩ : first = '~' ∧ chars = later := by simpa [Piece.source] using written
    obtain rfl : pieces = [] := fits
    rfl
  | glob character =>
    obtain ⟨rfl, rfl⟩ : first = character ∧ chars = later := by simpa [Piece.source] using written
    obtain ⟨listed, inside, dash, home⟩ := fits
    have begun : pieces ≠ [] := fun none => inside (by rw [none]; rfl)
    have reading : (within commands words pieces).word = some (wordOf pieces) := by
      simp [within, begun]
    have taken : (within commands words pieces).glob first =
        .ok (within commands words (pieces ++ [.glob first])) := by
      rw [within_concat, glob, reading]
      dsimp only
      rw [if_pos ⟨inside, dash, home⟩]
      simp [within, wordOf, Piece.meaning, Piece.globs, Piece.quotes]
    have plain : first ∉ [' ', '\t', '|', '>', '\'', '"', '\\'] := by
      simp only [globCharacters, List.mem_cons, List.not_mem_nil, or_false] at listed
      rcases listed with rfl | rfl | rfl | rfl | rfl | rfl <;> decide
    simp only [List.mem_cons, List.not_mem_nil, or_false, not_or] at plain
    simp only [unquoted, plain, or_self, if_false, reading, reduceCtorEq, and_false, listed,
      if_true, taken, Except.map]
  | escaped character =>
    obtain ⟨rfl, rfl⟩ : first = '\\' ∧ chars = character :: later := by
      simpa [Piece.source] using written
    have taken : nextLiteral (character :: later) = .ok (character, later) :=
      nextLiteral_ok.mpr ⟨rfl, fits⟩
    rw [← quoting (.escaped character) rfl rfl]
    simp only [unquoted, taken, Except.map]
    rfl
  | single text =>
    obtain ⟨rfl, rfl⟩ : first = '\'' ∧ chars = text ++ '\'' :: later := by
      simpa [Piece.source] using written
    have taken := insideSingle_text (within commands words pieces).openQuote text later rfl fits
    rw [← quoting (.single text) rfl rfl]
    exact taken
  | double inside dollar =>
    obtain ⟨rfl, rfl⟩ : first = '"' ∧ chars = inside.flatMap Inside.source ++
        ((if dollar then ['$'] else []) ++ '"' :: later) := by
      simpa [Piece.source] using written
    have taken := insideDouble_text (within commands words pieces).openQuote inside dollar later
      rfl fits
    rw [← quoting (.double inside dollar) rfl rfl]
    exact taken

/-- Outside quotes, a text of one character comes from that character alone. -/
theorem pieces_of_text {character : Char} (spelled : Spelled pieces)
    (bare : pieces.any Piece.quotes = false) (text : pieces.flatMap Piece.meaning = [character])
    (home : character ≠ '~') : pieces = [.plain character] := by
  have single : ∀ piece ∈ pieces, piece.meaning.length = 1 := by
    intro piece mem
    have own := List.any_eq_false.mp bare piece mem
    cases piece <;> first | rfl | exact absurd rfl own
  cases pieces with
  | nil => simp at text
  | cons piece rest =>
    have count := congrArg List.length text
    have own := single piece List.mem_cons_self
    rw [List.flatMap_cons, List.length_append, own] at count
    have fits := spelled [] piece rest rfl
    cases rest with
    | cons other rest =>
      have more := single other (by simp)
      rw [List.flatMap_cons, List.length_append, more, List.length_singleton] at count
      omega
    | nil =>
      have unquoted := List.any_eq_false.mp bare piece List.mem_cons_self
      cases piece with
      | plain other => simpa [Piece.meaning] using text
      | tilde => exact absurd (by simpa [Piece.meaning] using text.symm) home
      | glob other => exact absurd rfl fits.2.1
      | escaped other => exact absurd rfl unquoted
      | single other => exact absurd rfl unquoted
      | double inside dollar => exact absurd rfl unquoted

theorem stderrTarget_some {chars later : List Char} (found : stderrTarget chars = some later) :
    ∃ target ∈ stderrTargets, chars = target ++ later ∧ ends later = true := by
  obtain ⟨target, listed, kept⟩ := List.exists_of_findSome?_eq_some found
  obtain ⟨stripped, ended⟩ := Option.filter_eq_some_iff.mp kept
  exact ⟨target, listed, (List.isPrefixOf?_eq_some_iff_append_eq.mp stripped).symm, ended⟩

theorem stderrTarget_append {target later : List Char} (listed : target ∈ stderrTargets)
    (ended : ends later = true) : stderrTarget (target ++ later) = some later := by
  have own : ∀ text : List Char, (text.isPrefixOf? (text ++ later)).filter ends = some later :=
    fun text => by
      rw [List.isPrefixOf?_eq_some_iff_append_eq.mpr rfl, Option.filter_some, if_pos ended]
  simp only [stderrTargets, List.mem_cons, List.not_mem_nil, or_false] at listed
  rcases listed with rfl | rfl
  · rw [stderrTarget, stderrTargets, List.findSome?_cons, own]
  · have apart : "/dev/null".toList.isPrefixOf? ("&1".toList ++ later) = none := rfl
    rw [stderrTarget, stderrTargets, List.findSome?_cons, apart, Option.filter_none,
      List.findSome?_cons, own]

/-- What the lexer does with a character outside quotes. -/
theorem unquoted_ok (spelled : Spelled pieces) {first : Char} {chars later : List Char}
    {next : Lexer} (ran : (within commands words pieces).unquoted first chars = .ok (next, later)) :
    (∃ tab, [first] = (Item.blank tab).source ∧ later = chars ∧
      next = (within commands words pieces).endWord) ∨
    (first = '|' ∧ later = chars ∧ (within commands words pieces).endCommand = .ok next) ∨
    ends (first :: chars) = false ∧
      ((∃ target ∈ stderrTargets, first :: chars = '>' :: target ++ later ∧ ends later = true ∧
        pieces = [.plain '2'] ∧ next = within commands words []) ∨
      ∃ piece : Piece, piece.Fits pieces ∧ first :: chars = piece.source ++ later ∧
        next = within commands words (pieces ++ [piece])) := by
  by_cases blank : first = ' ' ∨ first = '\t'
  · rw [unquoted, if_pos blank] at ran
    cases ran
    refine .inl ⟨first = '\t', ?_, rfl, rfl⟩
    rcases blank with rfl | rfl <;> rfl
  by_cases pipe : first = '|'
  · rw [unquoted, if_neg blank, if_pos pipe] at ran
    obtain ⟨ended, took, same⟩ := except_map_eq_ok.mp ran
    cases same
    exact .inr (.inl ⟨pipe, rfl, took⟩)
  refine .inr (.inr ⟨by simp_all [ends], ?_⟩)
  have read : ∀ piece : Piece, piece.Fits pieces → first :: chars = piece.source ++ later →
      ∃ piece : Piece, piece.Fits pieces ∧ first :: chars = piece.source ++ later ∧
        next = within commands words (pieces ++ [piece]) := by
    intro piece fits written
    have same := ran.symm.trans (unquoted_piece fits written)
    exact ⟨piece, fits, written, (Prod.mk.inj (Except.ok.inj same)).1⟩
  rw [unquoted, if_neg blank, if_neg pipe] at ran
  have reading : ∀ word, (within commands words pieces).word = some word →
      word = wordOf pieces := by
    intro word own
    simp only [within] at own
    split_ifs at own
    exact (Option.some.inj own).symm
  split_ifs at ran with redirect single double escape home glob form
  · obtain ⟨found, bare, ⟨word, own, two⟩, rfl⟩ := stderrRedirection_ok.mp ran
    obtain ⟨target, listed, rfl, ended⟩ := stderrTarget_some found
    rw [reading word own] at two
    have only := pieces_of_text spelled bare two (by decide)
    refine .inl ⟨target, listed, by simp [redirect], ended, only, ?_⟩
    rw [only]
    rfl
  · obtain ⟨text, written, -, fits⟩ := insideSingle_ok rfl ran
    exact .inr (read (.single text) fits (by simp [single, written, Piece.source]))
  · obtain ⟨inside, dollar, fits, written, -⟩ := insideDouble_ok rfl ran
    exact .inr (read (.double inside dollar) fits (by simp [double, written, Piece.source]))
  · obtain ⟨taken, next, same⟩ := except_map_eq_ok.mp ran
    cases same
    obtain ⟨written, control⟩ := nextLiteral_ok.mp next
    exact .inr (read (.escaped taken.1) control (by simp [escape, written, Piece.source]))
  · obtain ⟨rfl, outside⟩ := home
    cases ran
    refine .inr (read .tilde ?_ rfl)
    have none : pieces.isEmpty = true := by simpa [within] using outside
    exact List.isEmpty_iff.mp none
  · obtain ⟨taken, next, same⟩ := except_map_eq_ok.mp ran
    cases same
    refine .inr (read (.glob first) ⟨glob, ?_⟩ rfl)
    unfold Lexer.glob at next
    split at next
    · next word own =>
      split_ifs at next with inside
      rw [reading word own] at inside
      exact inside
    · cases next
  · obtain ⟨taken, next, same⟩ := except_map_eq_ok.mp ran
    cases same
    refine .inr (read (.plain first) ⟨(nonControl_ok.mp next).1, ?_⟩ rfl)
    simp only [special, List.mem_append, List.mem_cons, List.not_mem_nil, or_false, glob, form]
    tauto

/-- What the lexer holds of the command up to the characters left. -/
structure Holds (command : List Char) (done : List Command) (items : List Item)
    (pieces : List Piece) (chars : List Char) : Prop where
  spelled : Spelled pieces
  apart : items.IsChain fun first second => first.isBlank ∨ second.isBlank
  between : ∀ last ∈ items.getLast?, last.isBlank ∨ pieces = [] ∧ ends chars = true
  source : command = (done.flatMap fun command => command.source ++ ['|']) ++
    (items.flatMap Item.source ++ (pieces.flatMap Piece.source ++ chars))

/-- The lexer that has read so far. -/
def reached (done : List Command) (items : List Item) (pieces : List Piece) : Lexer :=
  within (done.map Command.words) (items.filterMap Item.read) pieces

variable {command chars : List Char} {done : List Command} {items : List Item}

/-- The items with the word that ends here. -/
theorem Holds.ended (holds : Holds command done items pieces chars) :
    ∃ closed : List Item,
      (closed.IsChain fun first second => first.isBlank ∨ second.isBlank) ∧
      closed.flatMap Item.source = items.flatMap Item.source ++ pieces.flatMap Piece.source ∧
      (reached done items pieces).endWord = reached done closed [] := by
  by_cases none : pieces = []
  · subst none
    exact ⟨items, holds.apart, by simp, by simp [reached, within, endWord]⟩
  · refine ⟨items ++ [.word ⟨pieces, none, holds.spelled⟩], ?_, by simp [Item.source], ?_⟩
    · refine List.isChain_append.mpr ⟨holds.apart, List.isChain_singleton _, ?_⟩
      intro last mem next _
      exact .inl ((holds.between last mem).resolve_right fun ended => none ended.1)
    · have ended : (reached done items pieces).endWord =
          within (done.map Command.words) (items.filterMap Item.read ++ [wordOf pieces]) [] :=
        within_endWord ⟨pieces, none, holds.spelled⟩
      simpa [reached] using ended

theorem Holds.endCommand (holds : Holds command done items pieces chars) {next : Lexer}
    (ran : (reached done items pieces).endCommand = .ok next) :
    ∃ last : Command, last.source = items.flatMap Item.source ++ pieces.flatMap Piece.source ∧
      next = reached (done ++ [last]) [] [] := by
  obtain ⟨closed, apart, source, ended⟩ := holds.ended
  unfold Lexer.endCommand at ran
  rw [ended] at ran
  dsimp only at ran
  split_ifs at ran with none
  cases ran
  exact ⟨⟨closed, apart, none⟩, source, by simp [reached, within, Command.words]⟩

/-- A character outside quotes keeps it. -/
theorem Holds.unquoted {first : Char} {later : List Char} {next : Lexer}
    (holds : Holds command done items pieces (first :: chars))
    (ran : (reached done items pieces).unquoted first chars = .ok (next, later)) :
    ∃ done items pieces, Holds command done items pieces later ∧
      next = reached done items pieces := by
  rcases unquoted_ok holds.spelled ran with ⟨tab, written, rfl, rfl⟩ | ⟨rfl, rfl, took⟩ |
    ⟨inWord, ⟨target, listed, written, ended, rfl, rfl⟩ | ⟨piece, fits, written, rfl⟩⟩
  · obtain ⟨closed, apart, source, ended⟩ := holds.ended
    refine ⟨done, closed ++ [.blank tab], [], ⟨spelled_nil, ?_, ?_, ?_⟩, ?_⟩
    · exact List.isChain_append.mpr ⟨apart, List.isChain_singleton _, by simp [Item.isBlank]⟩
    · simp [Item.isBlank]
    · rw [holds.source, List.flatMap_append, source, List.flatMap_singleton, ← written]
      simp
    · exact ended.trans (by simp [reached])
  · obtain ⟨last, source, rfl⟩ := holds.endCommand took
    refine ⟨done ++ [last], [], [], ⟨spelled_nil, List.isChain_nil, by simp, ?_⟩, rfl⟩
    rw [holds.source, List.flatMap_append, List.flatMap_singleton, source]
    simp
  · refine ⟨done, items ++ [.stderr target listed], [], ⟨spelled_nil, ?_, ?_, ?_⟩, ?_⟩
    · refine List.isChain_append.mpr ⟨holds.apart, List.isChain_singleton _, ?_⟩
      intro last mem other _
      exact .inl ((holds.between last mem).resolve_right fun ended => by cases ended.1)
    · simp [ended]
    · rw [holds.source, written]
      simp [Item.source, Piece.source]
    · simp [reached]
  · refine ⟨done, items, pieces ++ [piece], ⟨?_, holds.apart, ?_, ?_⟩, rfl⟩
    · exact spelled_concat.mpr ⟨holds.spelled, fits⟩
    · intro last mem
      refine .inl ((holds.between last mem).resolve_right fun ended => ?_)
      rw [inWord] at ended
      cases ended.2
    · rw [holds.source, written]
      simp

theorem Holds.run {final : Lexer} (holds : Holds command done items pieces chars)
    (ran : (reached done items pieces).run chars = .ok final) :
    ∃ done items pieces, Holds command done items pieces [] ∧
      final = reached done items pieces := by
  induction length : chars.length using Nat.strong_induction_on generalizing done items pieces chars with
  | _ length ih =>
    cases chars with
    | nil =>
      rw [Lexer.run] at ran
      cases ran
      exact ⟨done, items, pieces, holds, rfl⟩
    | cons first rest =>
      rw [Lexer.run] at ran
      split at ran
      · cases ran
      · next next later took =>
        obtain ⟨done, items, pieces, holds, rfl⟩ := holds.unquoted took
        have shorter := unquoted_length took
        exact ih later.length (by simp at length; omega) holds ran rfl

end Lexer

/-- What the guard reads is a pipe of the grammar, and the words are its words. -/
theorem pipe_of_splitPipe {command : List Char} {commands : List (List Word)}
    (ran : splitPipe command = .ok commands) :
    ∃ pipe : Pipe, pipe.source = command ∧ pipe.words = commands := by
  obtain ⟨lexer, run, ran⟩ := except_bind_eq_ok.mp ran
  obtain ⟨ended, last, same⟩ := except_bind_eq_ok.mp ran
  cases same
  have start : Lexer.Holds command [] [] [] command :=
    ⟨spelled_nil, List.isChain_nil, by simp, by simp⟩
  obtain ⟨done, items, pieces, holds, rfl⟩ := start.run run
  obtain ⟨command, source, rfl⟩ := holds.endCommand last
  refine ⟨⟨done, command⟩, ?_, by simp [Pipe.words, Lexer.reached, Lexer.within]⟩
  rw [Pipe.source, source, holds.source, List.append_nil]

namespace Lexer

variable {commands : List (List Word)} {words : List Word}

theorem run_cons {lexer next : Lexer} {first : Char} {chars later : List Char}
    (took : lexer.unquoted first chars = .ok (next, later)) :
    lexer.run (first :: chars) = next.run later := by
  rw [run]
  split
  · next failed => cases took.symm.trans failed
  · next other rest same =>
    cases took.symm.trans same
    rfl

theorem run_blank (lexer : Lexer) (tab : Bool) (later : List Char) :
    lexer.run ((Item.blank tab).source ++ later) = lexer.endWord.run later := by
  cases tab <;> exact run_cons rfl

theorem Piece.source_ne_nil (piece : Piece) : ∃ first rest, piece.source = first :: rest := by
  cases piece <;> exact ⟨_, _, rfl⟩

theorem run_pieces (pieces more : List Piece) (spelled : Spelled (pieces ++ more))
    (later : List Char) :
    (within commands words pieces).run (more.flatMap Piece.source ++ later) =
      (within commands words (pieces ++ more)).run later := by
  induction more generalizing pieces with
  | nil => simp
  | cons piece more ih =>
    obtain ⟨first, rest, source⟩ := Piece.source_ne_nil piece
    have fits := spelled pieces piece more rfl
    have took : (within commands words pieces).unquoted first
        (rest ++ (more.flatMap Piece.source ++ later)) =
          .ok (within commands words (pieces ++ [piece]), more.flatMap Piece.source ++ later) :=
      unquoted_piece fits (by rw [source, List.cons_append])
    rw [List.flatMap_cons, List.append_assoc, source, List.cons_append, run_cons took,
      ih (pieces ++ [piece]) (by simpa using spelled)]
    simp

theorem run_stderr {target later : List Char} (listed : target ∈ stderrTargets)
    (ended : ends later = true) :
    (within commands words []).run ('2' :: '>' :: target ++ later) =
      (within commands words []).run later := by
  have two : (Piece.plain '2').Fits [] := ⟨by decide, by decide⟩
  have redirect : (within commands words [.plain '2']).unquoted '>' (target ++ later) =
      .ok (within commands words [], later) := by
    have taken : (within commands words [.plain '2']).stderrRedirection (target ++ later) = _ :=
      stderrRedirection_ok.mpr ⟨stderrTarget_append listed ended, rfl, ⟨_, rfl, rfl⟩, rfl⟩
    exact taken
  exact (run_cons (unquoted_piece two rfl)).trans (run_cons redirect)

theorem ends_items {items : List Item} {rest : List Char} (ended : ends rest = true)
    (blank : ∀ first ∈ items.head?, first.isBlank) :
    ends (items.flatMap Item.source ++ rest) = true := by
  cases items with
  | nil => exact ended
  | cons item items =>
    have own := blank item rfl
    cases item with
    | blank tab => cases tab <;> rfl
    | word spelling => cases own
    | stderr target listed => cases own

/-- The items of a command, up to its end. -/
theorem run_items (commands : List (List Word)) (items : List Item) {rest : List Char}
    (ended : ends rest = true)
    (apart : items.IsChain fun first second => first.isBlank ∨ second.isBlank)
    {start : List Word} (words : List Word) (pieces : List Piece)
    (fresh : pieces = [] ∨ ∀ first ∈ items.head?, first.isBlank)
    (begun : (within commands words pieces).endWord = within commands start []) :
    ∃ words' pieces', (within commands words pieces).run (items.flatMap Item.source ++ rest) =
        (within commands words' pieces').run rest ∧
      (within commands words' pieces').endWord =
        within commands (start ++ items.filterMap Item.read) [] := by
  induction items generalizing start words pieces with
  | nil => exact ⟨words, pieces, rfl, by simpa using begun⟩
  | cons item items ih =>
    obtain ⟨near, later⟩ := List.isChain_cons.mp apart
    cases item with
    | blank tab =>
      obtain ⟨words', pieces', run, closed⟩ := ih later start [] (.inl rfl) within_nil_endWord
      refine ⟨words', pieces', ?_, by simpa using closed⟩
      rw [List.flatMap_cons, List.append_assoc, run_blank, begun, run]
    | word spelling =>
      obtain rfl : pieces = [] := fresh.resolve_right fun blank => by cases blank _ rfl
      obtain rfl : words = start := congrArg Lexer.words (within_nil_endWord.symm.trans begun)
      obtain ⟨words', pieces', run, closed⟩ := ih later words spelling.pieces
        (.inr fun first mem => (near first mem).resolve_left Bool.false_ne_true)
        (within_endWord spelling)
      refine ⟨words', pieces', ?_, by simpa using closed⟩
      rw [List.flatMap_cons, List.append_assoc, Item.source,
        run_pieces [] spelling.pieces spelling.spelled, List.nil_append, run]
    | stderr target listed =>
      obtain rfl : pieces = [] := fresh.resolve_right fun blank => by cases blank _ rfl
      obtain rfl : words = start := congrArg Lexer.words (within_nil_endWord.symm.trans begun)
      obtain ⟨words', pieces', run, closed⟩ := ih later words [] (.inl rfl) within_nil_endWord
      refine ⟨words', pieces', ?_, by simpa using closed⟩
      have blank := ends_items ended fun first mem =>
        (near first mem).resolve_left Bool.false_ne_true
      rw [List.flatMap_cons, List.append_assoc, Item.source, run_stderr listed blank, run]

theorem endCommand_items (command : Command) {lexer : Lexer}
    (ended : lexer.endWord = within commands command.words []) :
    lexer.endCommand = .ok (within (commands ++ [command.words]) [] []) := by
  unfold endCommand
  rw [ended]
  exact if_neg command.named

theorem run_piped (commands : List (List Word)) (piped : List Command) (rest : List Char) :
    (within commands [] []).run
        ((piped.flatMap fun command => command.source ++ ['|']) ++ rest) =
      (within (commands ++ piped.map Command.words) [] []).run rest := by
  induction piped generalizing commands with
  | nil => simp
  | cons command piped ih =>
    have more : ends ('|' :: ((piped.flatMap fun command => command.source ++ ['|']) ++ rest)) :=
      rfl
    obtain ⟨words', pieces', run, closed⟩ := run_items commands command.items more command.apart
      [] [] (.inl rfl) rfl
    have ended : (within commands words' pieces').unquoted '|'
        ((piped.flatMap fun command => command.source ++ ['|']) ++ rest) =
        .ok (within (commands ++ [command.words]) [] [],
          (piped.flatMap fun command => command.source ++ ['|']) ++ rest) := by
      have pipe := endCommand_items command closed
      simp only [unquoted, pipe, Except.map]
      rfl
    have source : command.items.flatMap Item.source = command.source := rfl
    have next := ih (commands ++ [command.words])
    rw [source, run_cons ended, next] at run
    simpa using run

end Lexer

/-- A pipe of the grammar is read as its words. -/
theorem splitPipe_source (pipe : Pipe) : splitPipe pipe.source = .ok pipe.words := by
  have closing : Lexer.ends [] = true := rfl
  obtain ⟨words, pieces, run, closed⟩ := Lexer.run_items (pipe.piped.map Command.words)
    pipe.last.items closing pipe.last.apart [] [] (.inl rfl) rfl
  have piped := Lexer.run_piped [] pipe.piped pipe.last.source
  have last := Lexer.endCommand_items pipe.last closed
  have whole : Lexer.run ⟨[], [], none, false⟩ pipe.source =
      .ok (Lexer.within (pipe.piped.map Command.words) words pieces) := by
    rw [List.append_nil, Lexer.run] at run
    exact piped.trans run
  rw [splitPipe, whole]
  exact congrArg (·.map Lexer.commands) last

/-- The guard reads exactly the pipes of the grammar, each as its words. -/
theorem splitPipe_eq_ok_iff (command : List Char) (commands : List (List Word)) :
    splitPipe command = .ok commands ↔
      ∃ pipe : Pipe, pipe.source = command ∧ pipe.words = commands := by
  constructor
  · exact pipe_of_splitPipe
  · rintro ⟨pipe, rfl, rfl⟩
    exact splitPipe_source pipe

end ProgressiveReviewer.Guard
