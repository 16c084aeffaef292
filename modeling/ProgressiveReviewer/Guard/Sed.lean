import ProgressiveReviewer.Guard.Shell

/-! `sed -n` with a script that only prints lines (`fork-guard/src/sed.rs`). -/

namespace ProgressiveReviewer.Guard

open Explore (isWhitespace)

namespace Sed

/-- `trim_start`. -/
def trimStart (text : List Char) : List Char := text.dropWhile isWhitespace

/-- What follows the line number at the start of `text`, if one is there. -/
def digits (text : List Char) : Option (List Char) :=
  let rest := text.dropWhile Char.isDigit
  if rest.length < text.length then some rest else none

/-- What follows the slash that closes the regex `text` starts, a backslash escaping the next
character. -/
def regexEnd : List Char → Option (List Char)
  | [] => none
  | '/' :: rest => some rest
  | ['\\'] => none
  | '\\' :: _ :: rest => regexEnd rest
  | _ :: rest => regexEnd rest

/-- A line number, or GNU's `first~step`. -/
def lineNumber (text : List Char) : Option (List Char) :=
  (digits text).map fun rest => ((['~'].isPrefixOf? rest).bind digits).getD rest

/-- What follows the address at the start of `text`, if one is there; for the end of a range
a count or a multiple too. -/
def address (text : List Char) (isEnd : Bool) : Option (List Char) :=
  match text with
  | [] => none
  | first :: rest =>
    if first = '/' then regexEnd rest
    else if first = '$' then some rest
    else if isEnd = true ∧ (first = '+' ∨ first = '~') then digits rest
    else lineNumber text

/-- What follows the address or range at the start of `text`. -/
def addresses (text : List Char) : Option (List Char) :=
  match address text false with
  | some rest =>
    match [','].isPrefixOf? rest with
    | some last => address last true
    | none => some rest
  | none => some text

/-- What follows the `p` command at the start of `text`, after its address or range. -/
def printCommand (text : List Char) : Option (List Char) :=
  (addresses text).bind fun rest => ['p'].isPrefixOf? (trimStart rest)

theorem digits_length {text rest : List Char} (read : digits text = some rest) :
    rest.length < text.length := by
  unfold digits at read
  grind

theorem regexEnd_length {text rest : List Char} (read : regexEnd text = some rest) :
    rest.length < text.length := by
  fun_induction regexEnd text <;> grind

theorem length_of_strip {first : Char} {text rest : List Char}
    (strip : [first].isPrefixOf? text = some rest) : text.length = rest.length + 1 := by
  rw [← List.isPrefixOf?_eq_some_iff_append_eq.mp strip]
  simp

theorem lineNumber_length {text rest : List Char} (read : lineNumber text = some rest) :
    rest.length < text.length := by
  obtain ⟨after, own, rfl⟩ := Option.map_eq_some_iff.mp read
  have first := digits_length own
  cases step : (['~'].isPrefixOf? after).bind digits with
  | none => exact first
  | some later =>
    obtain ⟨count, strip, own⟩ := Option.bind_eq_some_iff.mp step
    have second := digits_length own
    have third := length_of_strip strip
    simp only [Option.getD_some]
    omega

theorem address_length {text rest : List Char} {isEnd : Bool}
    (read : address text isEnd = some rest) : rest.length < text.length := by
  unfold address at read
  split at read
  · cases read
  · split_ifs at read
    · exact (regexEnd_length read).trans (Nat.lt_succ_self _)
    · cases read
      exact Nat.lt_succ_self _
    · exact (digits_length read).trans (Nat.lt_succ_self _)
    · exact lineNumber_length read

theorem addresses_length {text rest : List Char} (read : addresses text = some rest) :
    rest.length ≤ text.length := by
  unfold addresses at read
  split at read
  · next after own =>
    have first := address_length own
    split at read
    · next last strip =>
      have second := address_length read
      have comma := length_of_strip strip
      omega
    · cases read
      exact first.le
  · cases read
    rfl

theorem trimStart_length (text : List Char) : (trimStart text).length ≤ text.length :=
  (List.dropWhile_suffix _).length_le

theorem printCommand_length {text rest : List Char} (read : printCommand text = some rest) :
    rest.length < text.length := by
  obtain ⟨after, own, strip⟩ := Option.bind_eq_some_iff.mp read
  have first := addresses_length own
  have second := trimStart_length after
  have third := length_of_strip strip
  omega

/-- Whether the sed script `script` is a list of `p` commands, each with an optional address
or range of addresses, separated by `;`. -/
def prints (script : List Char) : Bool :=
  match _read : printCommand (trimStart script) with
  | none => false
  | some after =>
    match _next : [';'].isPrefixOf? (trimStart after) with
    | some next => if next.all isWhitespace then true else prints next
    | none => after.all isWhitespace
termination_by script.length
decreasing_by
  have first := trimStart_length script
  have second := printCommand_length _read
  have third := trimStart_length after
  have fourth := length_of_strip _next
  omega

/-- The options of `sed` read so far. -/
structure Options where
  quiet : Bool
  scripts : List Word

namespace Options

/-- Takes the next of the words left as a script. -/
def script (options : Options) : List Word → Option (Options × List Word)
  | [] => none
  | word :: words => some ({ options with scripts := options.scripts ++ [word] }, words)

/-- Reads a bundle of short options. -/
def bundle (options : Options) (letters : List Char) (words : List Word) :
    Option (Options × List Word) :=
  match letters with
  | [] => some (options, words)
  | letter :: letters =>
    if letter = 'n' then bundle { options with quiet := true } letters words
    else if letter ∈ ['E', 'r', 's', 'u', 'z'] then bundle options letters words
    else if letter = 'e' then if letters = [] then options.script words else none
    else none

/-- The long options that change nothing of what a script may do. -/
def harmless : List (List Char) :=
  ["--regexp-extended".toList, "--separate".toList, "--null-data".toList,
    "--unbuffered".toList, "--posix".toList, "--sandbox".toList]

/-- Reads the option `text`, and its value from the words left when it takes one. -/
def read (options : Options) (text : List Char) (words : List Word) :
    Option (Options × List Word) :=
  if text = "--quiet".toList ∨ text = "--silent".toList then
    some ({ options with quiet := true }, words)
  else if text ∈ harmless then some (options, words)
  else if text = "--expression".toList then options.script words
  else options.bundle (text.drop 1) words

theorem script_length {options next : Options} {words rest : List Word}
    (read : options.script words = some (next, rest)) : rest.length ≤ words.length := by
  cases words with
  | nil => cases read
  | cons word words =>
    cases read
    exact Nat.le_succ _

theorem bundle_length {options next : Options} {letters : List Char} {words rest : List Word}
    (read : options.bundle letters words = some (next, rest)) : rest.length ≤ words.length := by
  fun_induction bundle options letters words <;> grind [→ script_length]

theorem read_length {options next : Options} {text : List Char} {words rest : List Word}
    (read : options.read text words = some (next, rest)) : rest.length ≤ words.length := by
  unfold Options.read at read
  split_ifs at read
  · cases read
    rfl
  · cases read
    rfl
  · exact script_length read
  · exact bundle_length read

end Options

/-- The loop of `prints_only`: the options and the operands among the words. -/
def readArguments (options : Options) (operands : List Word) (words : List Word) :
    Option (Options × List Word) :=
  match words with
  | [] => some (options, operands)
  | word :: words =>
    if word.text = "--".toList then some (options, operands ++ words)
    else if 1 < word.text.length ∧ word.text.head? = some '-' then
      match _read : options.read word.text words with
      | none => none
      | some (options, rest) => readArguments options operands rest
    else readArguments options (operands ++ [word]) words
termination_by words.length
decreasing_by
  · exact Nat.lt_succ_of_le (Options.read_length _read)
  · exact Nat.lt_succ_self _

/-- Whether the arguments of `sed` print lines and nothing else. -/
def printsOnly (arguments : List Word) : Bool :=
  match readArguments ⟨false, []⟩ [] arguments with
  | none => false
  | some (options, operands) =>
    let scripts := if options.scripts = [] then operands.take 1 else options.scripts
    options.quiet && scripts ≠ [] && scripts.all fun script => !script.globs && prints script.text

end Sed

end ProgressiveReviewer.Guard

/-! What a sed may read in a script. Seds differ in whether a slash in brackets ends a regex and
in what a backslash does there: the relations allow each way. -/

namespace ProgressiveReviewer.Guard.Sed

open Explore (isWhitespace)

/-- A regex up to its closing slash, from outside its brackets or from within, and what
follows. -/
inductive Regex : Bool → List Char → List Char → Prop where
  | close (rest : List Char) : Regex false ('/' :: rest) rest
  | escape (character : Char) {text rest : List Char} :
      Regex false text rest → Regex false ('\\' :: character :: text) rest
  | plain {character : Char} {text rest : List Char} : character ≠ '/' → character ≠ '\\' →
      Regex false text rest → Regex false (character :: text) rest
  | enter {text rest : List Char} : Regex true text rest → Regex false ('[' :: text) rest
  | inside (character : Char) {text rest : List Char} :
      Regex true text rest → Regex true (character :: text) rest
  | leave {text rest : List Char} : Regex false text rest → Regex true (']' :: text) rest

/-- The characters that stand in addresses and between commands. -/
def isFunction (character : Char) : Bool :=
  !isWhitespace character && !character.isDigit &&
    !(['/', '\\', '$', '+', '~', ',', ';'].contains character)

/-- An address at the start of a text, and what follows. -/
inductive Address : List Char → List Char → Prop where
  | regex {text flags rest : List Char} : Regex false text (flags ++ rest) →
      (∀ flag ∈ flags, flag = 'I' ∨ flag = 'M') → Address ('/' :: text) rest
  /-- A regex between other characters than slashes. -/
  | custom (text rest : List Char) : Address ('\\' :: text) rest
  | last (rest : List Char) : Address ('$' :: rest) rest
  | number {count : List Char} (rest : List Char) : count ≠ [] →
      (∀ digit ∈ count, digit.isDigit) → Address (count ++ rest) rest
  | step {first count : List Char} (rest : List Char) : first ≠ [] →
      (∀ digit ∈ first ++ count, digit.isDigit) → Address (first ++ '~' :: count ++ rest) rest
  | relative {sign : Char} {count : List Char} (rest : List Char) : sign = '+' ∨ sign = '~' →
      (∀ digit ∈ count, digit.isDigit) → Address (sign :: count ++ rest) rest

/-- The addresses that a command starts with, and what follows. -/
inductive Addresses : List Char → List Char → Prop where
  | none (text : List Char) : Addresses text text
  | one {text rest : List Char} : Address text rest → Addresses text rest
  | range {text before after last rest : List Char} :
      Address text (before ++ ',' :: after ++ last) → (∀ blank ∈ before ++ after, isWhitespace blank) →
      Address last rest → Addresses text rest

/-- The functions of the commands that a sed reads in a script, up to its end, a fault, or
where it stops for another reason. -/
inductive Reads : List Char → List Char → Prop where
  | stop (script : List Char) : Reads script []
  | command {lead text blanks rest functions : List Char} {function : Char} :
      (∀ character ∈ lead, isWhitespace character ∨ character = ';') →
      Addresses text (blanks ++ function :: rest) →
      (∀ blank ∈ blanks, isWhitespace blank) → isFunction function →
      Reads rest functions → Reads (lead ++ text) (function :: functions)

end ProgressiveReviewer.Guard.Sed
