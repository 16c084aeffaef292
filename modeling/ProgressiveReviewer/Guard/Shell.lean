import Mathlib.Data.List.Basic
import ProgressiveReviewer.Explore.Source
import ProgressiveReviewer.Library.Failing
import Mathlib.Data.List.Chain

/-! The words of a fork's shell command (`fork-guard/src/shell.rs`). The characters left are
passed on next to the rest of the lexer. -/

namespace ProgressiveReviewer.Guard

open Library
open Explore (isControl)

/-- One shell word, its quotes and backslashes removed. -/
structure Word where
  text : List Char
  /-- Whether the word holds a glob character outside quotes. -/
  globs : Bool
  deriving DecidableEq, Repr

inductive ShellError where
  | form (character : Char)
  | leadingGlob (character : Char)
  | control
  | unclosed
  | empty
  deriving DecidableEq, Repr

/-- Characters that start a shell form outside quotes. -/
def forms : List Char := [';', '&', '>', '<', '$', '\x60', '(', ')', '{', '}']

/-- Where a command may send its error messages. -/
def stderrTargets : List (List Char) := ["/dev/null".toList, "&1".toList]

/-- Characters that make a word a pattern of file names outside quotes. -/
def globCharacters : List Char := ['*', '?', '[', '~', '^', '#']

/-- The characters that a backslash escapes inside double quotes. -/
def escapable : List Char := ['$', '\x60', '"', '\\']

structure Lexer where
  commands : List (List Word)
  words : List Word
  /-- The word being read, once a character or a quote started it. -/
  word : Option Word
  /-- Whether a quote or a backslash is part of the word being read. -/
  quoted : Bool
  deriving DecidableEq, Repr

def nonControl (character : Char) : Except ShellError Char :=
  if isControl character then .error .control else .ok character

/-- The next character of the command and those after it. -/
def nextLiteral : List Char → Except ShellError (Char × List Char)
  | [] => .error .unclosed
  | character :: rest => (nonControl character).map (·, rest)

theorem nonControl_ok {character taken : Char} :
    nonControl character = .ok taken ↔ isControl character = false ∧ taken = character := by
  unfold nonControl
  split_ifs with control <;> simp [control, eq_comm]

theorem nextLiteral_ok {chars later : List Char} {character : Char} :
    nextLiteral chars = .ok (character, later) ↔
      chars = character :: later ∧ isControl character = false := by
  cases chars with
  | nil => simp [nextLiteral]
  | cons first rest =>
    simp only [nextLiteral, except_map_eq_ok, nonControl_ok, Prod.mk.injEq, List.cons.injEq]
    grind

namespace Lexer

/-- `word.get_or_insert_default()`. -/
def started (lexer : Lexer) : Word := lexer.word.getD ⟨[], false⟩

def push (lexer : Lexer) (character : Char) : Lexer :=
  { lexer with word := some { lexer.started with text := lexer.started.text ++ [character] } }

/-- A quote starts a word even when nothing stands inside. -/
def openQuote (lexer : Lexer) : Lexer :=
  { lexer with word := some lexer.started, quoted := true }

/-- The loop of `single_quoted`. -/
def insideSingle (lexer : Lexer) : List Char → Except ShellError (Lexer × List Char)
  | [] => .error .unclosed
  | character :: rest =>
    if isControl character then .error .control
    else if character = '\'' then .ok (lexer, rest)
    else (lexer.push character).insideSingle rest

def singleQuoted (lexer : Lexer) (chars : List Char) : Except ShellError (Lexer × List Char) :=
  lexer.openQuote.insideSingle chars

/-- The loop of `double_quoted`. -/
def insideDouble (lexer : Lexer) : List Char → Except ShellError (Lexer × List Char)
  | [] => .error .unclosed
  | character :: rest =>
    if isControl character then .error .control
    else if character = '"' then .ok (lexer, rest)
    else if character = '\\' then
      match rest with
      | [] => .error .unclosed
      | escaped :: later =>
        if isControl escaped then .error .control
        else if escaped ∈ escapable then (lexer.push escaped).insideDouble later
        else ((lexer.push '\\').push escaped).insideDouble later
    else if character = '$' ∧ rest.head? = some '"' then (lexer.push '$').insideDouble rest
    else if character = '$' ∨ character = '\x60' then .error (.form character)
    else (lexer.push character).insideDouble rest

def doubleQuoted (lexer : Lexer) (chars : List Char) : Except ShellError (Lexer × List Char) :=
  lexer.openQuote.insideDouble chars

/-- Whether a word may end here. -/
def ends (chars : List Char) : Bool :=
  chars.head?.all fun character => character = ' ' || character = '\t' || character = '|'

/-- What follows the first of the targets that stands here as a whole. -/
def stderrTarget (chars : List Char) : Option (List Char) :=
  stderrTargets.findSome? fun target => (target.isPrefixOf? chars).filter ends

def stderrRedirection (lexer : Lexer) (chars : List Char) :
    Except ShellError (Lexer × List Char) :=
  match stderrTarget chars with
  | some after =>
    if lexer.quoted = false ∧ (lexer.word.any fun word => word.text = ['2']) then
      .ok ({ lexer with word := none }, after)
    else .error (.form '>')
  | none => .error (.form '>')

/-- Takes a glob character, which only a word that starts with a literal character other than
`-` and `~` may hold. -/
def glob (lexer : Lexer) (character : Char) : Except ShellError Lexer :=
  match lexer.word with
  | some word =>
    if word.text ≠ [] ∧ word.text.head? ≠ some '-' ∧ word.text.head? ≠ some '~' then
      .ok { lexer with word := some ⟨word.text ++ [character], true⟩ }
    else .error (.leadingGlob character)
  | none => .error (.leadingGlob character)

def endWord (lexer : Lexer) : Lexer :=
  { lexer with quoted := false, words := lexer.words ++ lexer.word.toList, word := none }

def endCommand (lexer : Lexer) : Except ShellError Lexer :=
  let ended := lexer.endWord
  if ended.words = [] then .error .empty
  else .ok { ended with commands := ended.commands ++ [ended.words], words := [] }

def unquoted (lexer : Lexer) (character : Char) (chars : List Char) :
    Except ShellError (Lexer × List Char) :=
  if character = ' ' ∨ character = '\t' then .ok (lexer.endWord, chars)
  else if character = '|' then lexer.endCommand.map (·, chars)
  else if character = '>' then lexer.stderrRedirection chars
  else if character = '\'' then lexer.singleQuoted chars
  else if character = '"' then lexer.doubleQuoted chars
  else if character = '\\' then
    (nextLiteral chars).map fun taken => ({ lexer with quoted := true }.push taken.1, taken.2)
  else if character = '~' ∧ lexer.word = none then .ok (lexer.push character, chars)
  else if character ∈ globCharacters then (lexer.glob character).map (·, chars)
  else if character ∈ forms then .error (.form character)
  else (nonControl character).map fun character => (lexer.push character, chars)

theorem insideSingle_length {lexer next : Lexer} {chars later : List Char}
    (ran : lexer.insideSingle chars = .ok (next, later)) : later.length ≤ chars.length := by
  fun_induction insideSingle lexer chars <;> grind

theorem insideDouble_length {lexer next : Lexer} {chars later : List Char}
    (ran : lexer.insideDouble chars = .ok (next, later)) : later.length ≤ chars.length := by
  fun_induction insideDouble lexer chars <;> grind

theorem stderrTarget_length {chars after : List Char} (found : stderrTarget chars = some after) :
    after.length ≤ chars.length := by
  obtain ⟨target, -, kept⟩ := List.exists_of_findSome?_eq_some found
  obtain ⟨stripped, -⟩ := Option.filter_eq_some_iff.mp kept
  rw [← List.isPrefixOf?_eq_some_iff_append_eq.mp stripped, List.length_append]
  exact Nat.le_add_left _ _

theorem stderrRedirection_ok {lexer next : Lexer} {chars later : List Char} :
    lexer.stderrRedirection chars = .ok (next, later) ↔
      stderrTarget chars = some later ∧ lexer.quoted = false ∧
        (∃ word, lexer.word = some word ∧ word.text = ['2']) ∧
        next = { lexer with word := none } := by
  unfold stderrRedirection
  cases stderrTarget chars with
  | none => simp
  | some after => grind [Option.any_eq_true]

theorem unquoted_length {lexer next : Lexer} {character : Char} {chars later : List Char}
    (ran : lexer.unquoted character chars = .ok (next, later)) :
    later.length ≤ chars.length := by
  unfold unquoted at ran
  split_ifs at ran
  · cases ran
    rfl
  · obtain ⟨own, took, same⟩ := except_map_eq_ok.mp ran
    cases same
    rfl
  · exact stderrTarget_length (stderrRedirection_ok.mp ran).1
  · exact insideSingle_length ran
  · exact insideDouble_length ran
  · obtain ⟨taken, read, same⟩ := except_map_eq_ok.mp ran
    cases same
    rw [(nextLiteral_ok.mp read).1]
    exact Nat.le_succ _
  · cases ran
    rfl
  · obtain ⟨own, took, same⟩ := except_map_eq_ok.mp ran
    cases same
    rfl
  · obtain ⟨own, took, same⟩ := except_map_eq_ok.mp ran
    cases same
    rfl

/-- The loop of `split_pipe`. -/
def run (lexer : Lexer) : List Char → Except ShellError Lexer
  | [] => .ok lexer
  | character :: rest =>
    match _taken : lexer.unquoted character rest with
    | .error error => .error error
    | .ok (next, later) => next.run later
termination_by chars => chars.length
decreasing_by exact Nat.lt_succ_of_le (unquoted_length _taken)

end Lexer

/-- The commands of the pipe `command`, each as its words. -/
def splitPipe (command : List Char) : Except ShellError (List (List Word)) := do
  let lexer ← Lexer.run ⟨[], [], none, false⟩ command
  let ended ← lexer.endCommand
  pure ended.commands

end ProgressiveReviewer.Guard

/-! The commands that a fork may give, as a grammar: how each part of a word is written and
what the shell reads it as. -/

namespace ProgressiveReviewer.Guard

open Explore (isControl)

/-- A part of a text in double quotes. -/
inductive Inside where
  | plain (character : Char)
  | escaped (character : Char)
  /-- A backslash that escapes nothing and stays. -/
  | kept (character : Char)

namespace Inside

def source : Inside → List Char
  | plain character => [character]
  | escaped character => ['\\', character]
  | kept character => ['\\', character]

def meaning : Inside → List Char
  | plain character => [character]
  | escaped character => [character]
  | kept character => ['\\', character]

def Fits : Inside → Prop
  | plain character => isControl character = false ∧ character ∉ escapable
  | escaped character => character ∈ escapable
  | kept character => isControl character = false ∧ character ∉ escapable

end Inside

/-- A part of a shell word. -/
inductive Piece where
  | plain (character : Char)
  /-- The home directory, at the start of a word. -/
  | tilde
  | glob (character : Char)
  | escaped (character : Char)
  | single (text : List Char)
  /-- With a dollar sign right before the closing quote or without. -/
  | double (inside : List Inside) (dollar : Bool)

/-- The characters that mean something to the shell outside quotes. -/
def special : List Char := [' ', '\t', '|', '\'', '"', '\\'] ++ globCharacters ++ forms

namespace Piece

def source : Piece → List Char
  | plain character => [character]
  | tilde => ['~']
  | glob character => [character]
  | escaped character => ['\\', character]
  | single text => '\'' :: text ++ ['\'']
  | double inside dollar =>
    '"' :: inside.flatMap Inside.source ++ (if dollar then ['$'] else []) ++ ['"']

def meaning : Piece → List Char
  | plain character => [character]
  | tilde => ['~']
  | glob character => [character]
  | escaped character => [character]
  | single text => text
  | double inside dollar => inside.flatMap Inside.meaning ++ if dollar then ['$'] else []

def globs : Piece → Bool
  | glob _ => true
  | _ => false

/-- Whether a quote or a backslash is part of it. -/
def quotes : Piece → Bool
  | escaped _ | single _ | double _ _ => true
  | _ => false

/-- A glob comes after a first character that keeps the file names from being options, and
everything that is not quoted is no special character. -/
def Fits (before : List Piece) : Piece → Prop
  | plain character => isControl character = false ∧ character ∉ special
  | tilde => before = []
  | glob character => character ∈ globCharacters ∧ before.flatMap meaning ≠ [] ∧
      (before.flatMap meaning).head? ≠ some '-' ∧ (before.flatMap meaning).head? ≠ some '~'
  | escaped character => isControl character = false
  | single text => ∀ character ∈ text, isControl character = false ∧ character ≠ '\''
  | double inside _ => ∀ part ∈ inside, part.Fits

end Piece

/-- Each part fits what stands before it. -/
def Spelled (pieces : List Piece) : Prop :=
  ∀ before piece after, pieces = before ++ piece :: after → piece.Fits before

theorem spelled_nil : Spelled [] := fun before piece after same => by simp at same

theorem spelled_concat {pieces : List Piece} {piece : Piece} :
    Spelled (pieces ++ [piece]) ↔ Spelled pieces ∧ piece.Fits pieces := by
  constructor
  · intro spelled
    refine ⟨fun before own after same => ?_, spelled pieces piece [] rfl⟩
    exact spelled before own (after ++ [piece]) (by simp [same])
  · rintro ⟨spelled, fits⟩ before own after same
    rcases List.eq_nil_or_concat after with rfl | ⟨after, last, rfl⟩
    · obtain ⟨rfl, rfl⟩ : pieces = before ∧ piece = own := by simpa using same
      exact fits
    · have apart : pieces ++ [piece] = (before ++ own :: after) ++ [last] := by simpa using same
      exact spelled before own after (List.append_inj' apart rfl).1

/-- The word that the shell reads from its parts. -/
def wordOf (pieces : List Piece) : Word := ⟨pieces.flatMap Piece.meaning, pieces.any Piece.globs⟩

/-- A word as it is written. -/
structure Spelling where
  pieces : List Piece
  written : pieces ≠ []
  spelled : Spelled pieces

/-- What a command is made of. -/
inductive Item where
  | blank (tab : Bool)
  | word (spelling : Spelling)
  /-- Error messages that go to one of the targets. -/
  | stderr (target : List Char) (listed : target ∈ stderrTargets)

namespace Item

def source : Item → List Char
  | blank tab => [if tab then '\t' else ' ']
  | word spelling => spelling.pieces.flatMap Piece.source
  | stderr target _ => '2' :: '>' :: target

def isBlank : Item → Bool
  | blank _ => true
  | _ => false

/-- The word that the command is given. -/
def read : Item → Option Word
  | word spelling => some (wordOf spelling.pieces)
  | _ => none

@[simp] theorem filterMap_blank (tab : Bool) (items : List Item) :
    (blank tab :: items).filterMap read = items.filterMap read := rfl

@[simp] theorem filterMap_word (spelling : Spelling) (items : List Item) :
    (word spelling :: items).filterMap read =
      wordOf spelling.pieces :: items.filterMap read := rfl

@[simp] theorem filterMap_stderr (target : List Char) (listed : target ∈ stderrTargets)
    (items : List Item) :
    (stderr target listed :: items).filterMap read = items.filterMap read := rfl

end Item

/-- The words and redirections of a command, with blanks between them. -/
structure Command where
  items : List Item
  apart : items.IsChain fun first second => first.isBlank ∨ second.isBlank
  named : items.filterMap Item.read ≠ []

def Command.source (command : Command) : List Char := command.items.flatMap Item.source

def Command.words (command : Command) : List Word := command.items.filterMap Item.read

/-- Commands with a pipe after each but the last. -/
structure Pipe where
  piped : List Command
  last : Command

def Pipe.source (pipe : Pipe) : List Char :=
  (pipe.piped.flatMap fun command => command.source ++ ['|']) ++ pipe.last.source

def Pipe.words (pipe : Pipe) : List (List Word) :=
  pipe.piped.map Command.words ++ [pipe.last.words]

end ProgressiveReviewer.Guard
