import ProgressiveReviewer.Guard.Sed
import ProgressiveReviewer.Guard.Printing
import ProgressiveReviewer.Guard.Reading

/-! Which commands of a pipe only read (`fork-guard/src/commands.rs`), and which shell commands
a fork may run (`fork-guard/src/lib.rs`). -/

namespace ProgressiveReviewer.Guard

inductive Refusal where
  /-- A command, subcommand or option that may write or run another program. -/
  | notReading
  /-- A jj command that would snapshot the working copy. -/
  | snapshot
  deriving DecidableEq, Repr

/-- An option that a command takes before its subcommand. -/
inductive Global where
  | flag (name : List Char)
  /-- An option followed by its value, in the next word or after `=`. -/
  | valued (name : List Char)

def Global.name : Global → List Char
  | flag name => name
  | valued name => name

/-- Commands that a fork may run with any arguments but the writing options. -/
def plain : List (List Char) :=
  ["rg".toList, "grep".toList, "ls".toList, "cat".toList, "head".toList, "tail".toList,
    "wc".toList, "find".toList, "pwd".toList, "nl".toList, "cut".toList, "diff".toList]

def jjSubcommands : List (List (List Char)) :=
  [["log".toList], ["diff".toList], ["show".toList], ["st".toList], ["status".toList],
    ["evolog".toList], ["interdiff".toList], ["root".toList], ["file".toList, "show".toList],
    ["file".toList, "list".toList]]

def jjGlobals : List Global :=
  [.flag "--ignore-working-copy".toList, .flag "--no-pager".toList, .flag "--quiet".toList,
    .valued "--at-op".toList, .valued "--at-operation".toList, .valued "--color".toList]

/-- Git options that another option starts with, but options of their own. -/
def gitReadingPrefixes : List (List Char) := ["--text".toList, "--filter".toList]

def gitSubcommands : List (List Char) :=
  ["log".toList, "diff".toList, "show".toList, "status".toList, "blame".toList,
    "ls-files".toList, "cat-file".toList, "rev-parse".toList, "grep".toList,
    "merge-base".toList]

def gitGlobals : List Global :=
  [.flag "--no-pager".toList, .flag "-P".toList, .flag "--no-optional-locks".toList]

/-- Options that write a file, run another program, or change the configuration that could run
one. -/
def writingOptions : List (List Char) :=
  ["--config".toList, "--config-file".toList, "--config-toml".toList, "--tool".toList,
    "--pre".toList, "--hostname-bin".toList, "--output".toList,
    "--open-files-in-pager".toList, "--ext-diff".toList, "--textconv".toList,
    "--filters".toList, "-exec".toList, "-execdir".toList, "-delete".toList, "-ok".toList,
    "-okdir".toList, "-fprint".toList, "-fprint0".toList, "-fprintf".toList, "-fls".toList]

/-- The option `word` names, without the value it gives after `=`. -/
def optionName (word : List Char) : List Char := word.takeWhile (· ≠ '=')

/-- Whether `word` is one of the writing options. -/
def writes (word : List Char) : Bool := writingOptions.contains (optionName word)

/-- Whether `word` is a bundle of short options that holds the option `letter`. -/
def bundles (word : List Char) (letter : Char) : Bool :=
  match word with
  | '-' :: bundle =>
    (bundle.dropWhile fun other => other.isAlphanum && other != letter).head? ==
      some letter
  | _ => false

/-- Whether git would take `word` for a writing option. -/
def gitWrites (word : List Char) : Bool :=
  let name := optionName word
  let abbreviation := 2 < name.length && "--".toList.isPrefixOf name &&
    !gitReadingPrefixes.contains name && writingOptions.any fun option => name.isPrefixOf option
  abbreviation || bundles word 'O'

/-- The arguments from the subcommand on, after the options `globals` allows before it. -/
def subcommand (globals : List Global) : List Word → Option (List Word)
  | [] => none
  | word :: rest =>
    if word.text.head? ≠ some '-' then some (word :: rest)
    else if '=' ∈ word.text then
      if (globals.any fun global =>
          match global with
          | .valued name => name = optionName word.text
          | .flag _ => false) then subcommand globals rest
      else none
    else
      match globals.find? fun global => global.name = word.text with
      | none => none
      | some (.flag _) => subcommand globals rest
      | some (.valued _) =>
        match rest with
        | [] => none
        | _ :: later => subcommand globals later

def jjRefusal (arguments : List Word) : Option Refusal :=
  let reads := (subcommand jjGlobals arguments).any fun rest =>
    jjSubcommands.any fun path =>
      path.length ≤ rest.length && (path.zip rest).all fun entry => entry.2.text = entry.1
  let repository (word : Word) : Bool :=
    bundles word.text 'R' || optionName word.text = "--repository".toList
  if !reads || arguments.any repository then some .notReading
  else
    let options := arguments.takeWhile fun word => word.text ≠ "--".toList
    if options.any fun word => word.text = "--ignore-working-copy".toList then none
    else some .snapshot

/-- Why the command `words` (its name first) is refused; `none` when it only reads. -/
def refusal : List Word → Option Refusal
  | [] => none
  | name :: arguments =>
    let settled (reads : Bool) : Option Refusal := if reads then none else some .notReading
    if arguments.any fun word => writes word.text then settled false
    else if name.text = "jj".toList then jjRefusal arguments
    else if name.text = "git".toList then
      settled (!(arguments.any fun word => gitWrites word.text) &&
        (subcommand gitGlobals arguments).any fun rest =>
          rest.head?.any fun word => gitSubcommands.contains word.text)
    else if name.text = "sed".toList then settled (Sed.printsOnly arguments)
    else settled (plain.contains name.text)

/-- What a shell form is called in a refusal. -/
def ShellError.reason : ShellError → String
  | form '\x60' => "a backtick outside single quotes"
  | form '$' => "`$` outside single quotes"
  | form character => "`" ++ String.singleton character ++ "` outside quotes"
  | leadingGlob character =>
    "`" ++ String.singleton character ++ "` outside quotes at the start of a word or in an option"
  | control => "a newline or another control character"
  | unclosed => "an unclosed quote"
  | empty => "an empty command"

def shellRefusal (command : List Char) (error : ShellError) : String :=
  "`" ++ String.ofList command ++ "` is not allowed: it holds " ++ error.reason ++
    ". This session runs one reading command or a pipe, with no list, substitution or " ++
    "redirection but 2>/dev/null and 2>&1; quote a pattern that holds one of these characters."

def Refusal.text (command : List Char) : Refusal → String
  | notReading =>
    "`" ++ String.ofList command ++ "` is not allowed: this session only reads code (jj and " ++
      "git log, diff, show; jj file show and list; rg; cat; sed -n with p; ls and the like), " ++
      "one command or a pipe."
  | snapshot =>
    "`" ++ String.ofList command ++ "` is not allowed: run jj with --ignore-working-copy, as " ++
      "in `jj --ignore-working-copy log`, so that it records no operation."

/-- Why the shell command `command` is refused; `none` when it only reads. -/
def commandRefusal (command : List Char) : Option String :=
  match splitPipe command with
  | .error error => some (shellRefusal command error)
  | .ok pipe => (pipe.findSome? refusal).map (Refusal.text command)

end ProgressiveReviewer.Guard

/-! What the shell runs when the guard lets a fork's command through: listed commands, none with
an option that writes, in whatever way the command reads its options. -/

namespace ProgressiveReviewer.Guard

/-- The options that a command is given before its subcommand, with their values. -/
inductive Given (globals : List Global) : List Word → Prop where
  | none : Given globals []
  | flag {word : Word} {rest : List Word} : .flag word.text ∈ globals → Given globals rest →
      Given globals (word :: rest)
  | valued {word : Word} (value : Word) {rest : List Word} : .valued word.text ∈ globals →
      Given globals rest → Given globals (word :: value :: rest)
  | assigned {word : Word} {name value : List Char} {rest : List Word} :
      word.text = name ++ '=' :: value → .valued name ∈ globals → Given globals rest →
      Given globals (word :: rest)

/-- Short options in one word, the last of which is `letter` and takes the rest as its value. -/
def Bundled (word : List Char) (letter : Char) : Prop :=
  ∃ flags value, word = '-' :: flags ++ letter :: value ∧ ∀ flag ∈ flags, flag.isAlphanum = true

/-- What a command that takes the start of a long option for the option takes `name` for: the
option of that name, or the only one that starts so. -/
def Abbreviates (options : List (List Char)) (name option : List Char) : Prop :=
  "--".toList <+: name ∧ option ∈ options ∧
    (name = option ∨
      name ∉ options ∧ name <+: option ∧ ∀ other ∈ options, name <+: other → other = option)

/-- A jj command that reads this repository and records no operation. -/
structure JjReads (arguments : List Word) : Prop where
  subcommand : ∃ given path rest, arguments = given ++ path ++ rest ∧ Given jjGlobals given ∧
    path.map Word.text ∈ jjSubcommands
  repository : ∀ word ∈ arguments, optionName word.text ≠ "--repository".toList ∧
    ¬Bundled word.text 'R'
  snapshot : ∃ options rest, arguments = options ++ rest ∧
    (∃ word ∈ options, word.text = "--ignore-working-copy".toList) ∧
    ∀ word ∈ options, word.text ≠ "--".toList

/-- A git command that reads, whatever long options its subcommand has. -/
structure GitReads (arguments : List Word) : Prop where
  subcommand : ∃ given name rest, arguments = given ++ name :: rest ∧ Given gitGlobals given ∧
    name.text ∈ gitSubcommands
  pager : ∀ word ∈ arguments, ¬Bundled word.text 'O'
  writes : ∀ options, gitReadingPrefixes ⊆ options → ∀ word ∈ arguments, ∀ option,
    Abbreviates options (optionName word.text) option → option ∉ writingOptions

/-- How `sed` reads its arguments: whether it prints only what it is told, its scripts and its
operands. -/
inductive SedArguments : List Word → Bool → List Word → List Word → Prop where
  | none : SedArguments [] false [] []
  | operands {word : Word} (rest : List Word) : word.text = "--".toList →
      SedArguments (word :: rest) false [] rest
  | operand {word : Word} {rest scripts operands : List Word} {quiet : Bool} :
      (word.text.head? ≠ some '-' ∨ word.text = ['-']) →
      SedArguments rest quiet scripts operands →
      SedArguments (word :: rest) quiet scripts (word :: operands)
  | flags {word : Word} {letters : List Char} {rest scripts operands : List Word}
      {quiet : Bool} : word.text = '-' :: letters →
      (∀ letter ∈ letters, letter ∈ ['n', 'E', 'r', 's', 'u', 'z']) →
      SedArguments rest quiet scripts operands →
      SedArguments (word :: rest) (letters.contains 'n' || quiet) scripts operands
  | script {word : Word} {letters : List Char} (script : Word)
      {rest scripts operands : List Word} {quiet : Bool} :
      word.text = '-' :: letters ++ ['e'] →
      (∀ letter ∈ letters, letter ∈ ['n', 'E', 'r', 's', 'u', 'z']) →
      SedArguments rest quiet scripts operands →
      SedArguments (word :: script :: rest) (letters.contains 'n' || quiet)
        (script :: scripts) operands
  | quiet {word : Word} {rest scripts operands : List Word} {quiet : Bool} :
      word.text ∈ ["--quiet".toList, "--silent".toList] →
      SedArguments rest quiet scripts operands →
      SedArguments (word :: rest) true scripts operands
  | harmless {word : Word} {rest scripts operands : List Word} {quiet : Bool} :
      word.text ∈ Sed.Options.harmless → SedArguments rest quiet scripts operands →
      SedArguments (word :: rest) quiet scripts operands
  | expression {word : Word} (script : Word) {rest scripts operands : List Word}
      {quiet : Bool} : word.text = "--expression".toList →
      SedArguments rest quiet scripts operands →
      SedArguments (word :: script :: rest) quiet (script :: scripts) operands

/-- A `sed` that prints lines: in its scripts, any sed reads `p` commands only. -/
def SedReads (arguments : List Word) : Prop :=
  ∃ scripts operands, SedArguments arguments true scripts operands ∧
    ∃ script more, (if scripts = [] then operands.take 1 else scripts) = script :: more ∧
      ∀ given ∈ script :: more, given.globs = false ∧
        ∀ functions, Sed.Reads given.text functions → ∀ function ∈ functions, function = 'p'

/-- A command that reads. -/
def Reads (name : Word) (arguments : List Word) : Prop :=
  (∀ word ∈ arguments, optionName word.text ∉ writingOptions) ∧
    (name.text ∈ plain ∨ name.text = "jj".toList ∧ JjReads arguments ∨
      name.text = "git".toList ∧ GitReads arguments ∨
      name.text = "sed".toList ∧ SedReads arguments)

theorem optionName_append {word : List Char} (assigned : '=' ∈ word) :
    ∃ value, word = optionName word ++ '=' :: value := by
  induction word with
  | nil => cases assigned
  | cons character word ih =>
    by_cases own : character = '='
    · exact ⟨word, by simp [optionName, own]⟩
    · obtain ⟨value, same⟩ := ih ((List.mem_cons.mp assigned).resolve_left (Ne.symm own))
      have name : optionName (character :: word) = character :: optionName word := by
        simp [optionName, own]
      exact ⟨value, by rw [name, List.cons_append, ← same]⟩

theorem given_of_subcommand {globals : List Global} {arguments rest : List Word}
    (found : subcommand globals arguments = some rest) :
    ∃ given, arguments = given ++ rest ∧ Given globals given ∧ rest ≠ [] := by
  fun_induction subcommand globals arguments with
  | case1 => cases found
  | case2 word more dash =>
    cases found
    exact ⟨[], rfl, .none, by simp⟩
  | case3 word more dash equals listed ih =>
    obtain ⟨given, rfl, all, nonempty⟩ := ih found
    obtain ⟨global, mem, own⟩ := List.any_eq_true.mp listed
    obtain ⟨value, same⟩ := optionName_append equals
    refine ⟨word :: given, rfl, ?_, nonempty⟩
    cases global with
    | flag name => cases own
    | valued name => exact .assigned same ((of_decide_eq_true own) ▸ mem) all
  | case4 => cases found
  | case5 => cases found
  | case6 word more dash equals name own ih =>
    obtain ⟨given, rfl, all, nonempty⟩ := ih found
    have found := List.find?_some own
    have same : name = word.text := of_decide_eq_true found
    exact ⟨word :: given, rfl, .flag (same ▸ List.mem_of_find?_eq_some own) all, nonempty⟩
  | case7 => cases found
  | case8 word dash equals name own value later ih =>
    obtain ⟨given, rfl, all, nonempty⟩ := ih found
    have found := List.find?_some own
    have same : name = word.text := of_decide_eq_true found
    exact ⟨word :: value :: given, rfl,
      .valued value (same ▸ List.mem_of_find?_eq_some own) all, nonempty⟩

theorem bundles_of_bundled {word : List Char} {letter : Char} (bundled : Bundled word letter) :
    bundles word letter = true := by
  obtain ⟨flags, value, rfl, named⟩ := bundled
  have inside : ∀ flags : List Char, (∀ flag ∈ flags, flag.isAlphanum = true) →
      ((flags ++ letter :: value).dropWhile fun other =>
        other.isAlphanum && other != letter).head? = some letter := by
    intro flags named
    induction flags with
    | nil => simp
    | cons flag flags ih =>
      have own := named flag List.mem_cons_self
      by_cases same : flag = letter
      · simp [same]
      · rw [List.cons_append, List.dropWhile_cons_of_pos (by simp [own, same])]
        exact ih fun other mem => named other (List.mem_cons_of_mem _ mem)
  simpa [bundles] using inside flags named

/-- An option that the guard lets git have is no start of a writing one, unless another of the
subcommand's options starts so too. -/
theorem not_writing_of_abbreviates {options : List (List Char)} {word option : List Char}
    (known : gitReadingPrefixes ⊆ options) (reads : gitWrites word = false)
    (named : writes word = false) (short : Abbreviates options (optionName word) option) :
    option ∉ writingOptions := by
  intro writing
  obtain ⟨long, listed, same | ⟨fresh, starts, unique⟩⟩ := short
  · simp only [writes, same] at named
    simp [writing] at named
  · have text : "--text".toList ∈ options := known (by simp [gitReadingPrefixes])
    have filter : "--filter".toList ∈ options := known (by simp [gitReadingPrefixes])
    have notReading : optionName word ∉ gitReadingPrefixes := fun mem => fresh (known mem)
    have longer : 2 < (optionName word).length := by
      by_contra short
      obtain ⟨tail, same⟩ := long
      have none : tail = [] := by
        have count := congrArg List.length same
        simp only [List.length_append] at count
        have two : "--".toList.length = 2 := rfl
        exact List.eq_nil_of_length_eq_zero (by omega)
      rw [none, List.append_nil] at same
      have first := unique _ text (same ▸ by decide)
      have second := unique _ filter (same ▸ by decide)
      exact absurd (first.trans second.symm) (by decide)
    have abbreviation : gitWrites word = true := by
      have any : (writingOptions.any fun option => (optionName word).isPrefixOf option) = true :=
        List.any_eq_true.mpr ⟨option, writing, List.isPrefixOf_iff_prefix.mpr starts⟩
      have dashes : "--".toList.isPrefixOf (optionName word) = true :=
        List.isPrefixOf_iff_prefix.mpr long
      simp only [gitWrites, longer, dashes, any, decide_true, Bool.true_and, Bool.and_true,
        Bool.or_eq_true, Bool.not_eq_true']
      exact .inl (by simpa using notReading)
    exact absurd (abbreviation.symm.trans reads) (by decide)

theorem eq_of_zip_all {path : List (List Char)} {rest : List Word}
    (long : path.length ≤ rest.length)
    (same : ((path.zip rest).all fun entry => entry.2.text = entry.1) = true) :
    ∃ named later, rest = named ++ later ∧ named.map Word.text = path := by
  induction path generalizing rest with
  | nil => exact ⟨[], rest, rfl, rfl⟩
  | cons name path ih =>
    cases rest with
    | nil => simp at long
    | cons word rest =>
      simp only [List.zip_cons_cons, List.all_cons, Bool.and_eq_true,
        decide_eq_true_eq] at same
      obtain ⟨named, later, rfl, texts⟩ := ih (by simpa using long) same.2
      exact ⟨word :: named, later, rfl, by rw [List.map_cons, texts, same.1]⟩

theorem jjReads_of_jjRefusal {arguments : List Word} (allowed : jjRefusal arguments = none) :
    JjReads arguments := by
  unfold jjRefusal at allowed
  dsimp only at allowed
  split_ifs at allowed with refused kept
  simp only [Bool.or_eq_true, Bool.not_eq_true', not_or, Bool.not_eq_false,
    Bool.not_eq_true] at refused
  obtain ⟨reads, repository⟩ := refused
  refine ⟨?_, ?_, ?_⟩
  · obtain ⟨rest, found, listed⟩ := (Option.any_eq_true _ _).mp reads
    obtain ⟨path, mem, own⟩ := List.any_eq_true.mp listed
    simp only [Bool.and_eq_true, decide_eq_true_eq] at own
    obtain ⟨given, rfl, all, -⟩ := given_of_subcommand found
    obtain ⟨named, later, rfl, texts⟩ := eq_of_zip_all own.1 own.2
    exact ⟨given, named, later, (List.append_assoc _ _ _).symm, all, texts ▸ mem⟩
  · intro word mem
    have own := List.any_eq_false.mp repository word mem
    simp only [Bool.or_eq_true, decide_eq_true_eq, not_or] at own
    exact ⟨own.2, fun bundled => own.1 (bundles_of_bundled bundled)⟩
  · refine ⟨arguments.takeWhile fun word => word.text ≠ "--".toList,
      arguments.dropWhile fun word => word.text ≠ "--".toList,
      List.takeWhile_append_dropWhile.symm, ?_, ?_⟩
    · obtain ⟨word, mem, own⟩ := List.any_eq_true.mp kept
      exact ⟨word, mem, of_decide_eq_true own⟩
    · intro word mem
      exact of_decide_eq_true (List.all_eq_true.mp List.all_takeWhile word mem)

theorem gitReads_of_subcommand {arguments rest : List Word}
    (named : ∀ word ∈ arguments, writes word.text = false)
    (reads : ∀ word ∈ arguments, gitWrites word.text = false)
    (found : subcommand gitGlobals arguments = some rest)
    (listed : (rest.head?.any fun word => gitSubcommands.contains word.text) = true) :
    GitReads arguments := by
  refine ⟨?_, ?_, ?_⟩
  · obtain ⟨given, rfl, all, nonempty⟩ := given_of_subcommand found
    obtain ⟨name, later, rfl⟩ := List.exists_cons_of_ne_nil nonempty
    exact ⟨given, name, later, rfl, all, by simpa using listed⟩
  · intro word mem bundled
    have own := reads word mem
    simp [gitWrites, bundles_of_bundled bundled] at own
  · intro options known word mem option short
    exact not_writing_of_abbreviates known (reads word mem) (named word mem) short

/-- What a bundle of short options reads. -/
theorem bundle_some {options next : Sed.Options} {letters : List Char} {words rest : List Word}
    (read : options.bundle letters words = some (next, rest)) :
    ∃ flags, (∀ letter ∈ flags, letter ∈ ['n', 'E', 'r', 's', 'u', 'z']) ∧
      (letters = flags ∧ rest = words ∧
          next = ⟨options.quiet || flags.contains 'n', options.scripts⟩ ∨
        letters = flags ++ ['e'] ∧ ∃ script, words = script :: rest ∧
          next = ⟨options.quiet || flags.contains 'n', options.scripts ++ [script]⟩) := by
  fun_induction Sed.Options.bundle options letters words with
  | case1 options =>
    cases read
    exact ⟨[], by simp, .inl ⟨rfl, rfl, by simp⟩⟩
  | case2 options letters ih =>
    obtain ⟨flags, fits, read⟩ := ih read
    refine ⟨'n' :: flags, List.forall_mem_cons.mpr ⟨by simp, fits⟩, ?_⟩
    rcases read with ⟨rfl, rfl, rfl⟩ | ⟨rfl, script, rfl, rfl⟩
    · exact .inl ⟨rfl, rfl, by simp⟩
    · exact .inr ⟨rfl, script, rfl, by simp⟩
  | case3 options letter letters quiet listed ih =>
    obtain ⟨flags, fits, read⟩ := ih read
    have other : 'n' ≠ letter := Ne.symm quiet
    refine ⟨letter :: flags, List.forall_mem_cons.mpr ⟨List.mem_cons_of_mem _ listed, fits⟩, ?_⟩
    rcases read with ⟨rfl, rfl, rfl⟩ | ⟨rfl, script, rfl, rfl⟩
    · exact .inl ⟨rfl, rfl, by simp [other]⟩
    · exact .inr ⟨rfl, script, rfl, by simp [other]⟩
  | case4 =>
    cases words with
    | nil => cases read
    | cons script words =>
      cases read
      exact ⟨[], by simp, .inr ⟨rfl, script, rfl, by simp⟩⟩
  | case5 => cases read
  | case6 => cases read

theorem sedArguments_of_read {options next : Sed.Options} {word : Word} {words rest : List Word}
    (dash : 1 < word.text.length ∧ word.text.head? = some '-')
    (read : options.read word.text words = some (next, rest)) {quiet : Bool}
    {scripts operands : List Word} (later : SedArguments rest quiet scripts operands) :
    ∃ quiet' scripts', SedArguments (word :: words) quiet' scripts' operands ∧
      (⟨next.quiet || quiet, next.scripts ++ scripts⟩ : Sed.Options) =
        ⟨options.quiet || quiet', options.scripts ++ scripts'⟩ := by
  unfold Sed.Options.read at read
  split_ifs at read with quietly harmless expression
  · cases read
    exact ⟨true, scripts, .quiet (by simpa using quietly) later, by simp⟩
  · cases read
    exact ⟨quiet, scripts, .harmless harmless later, rfl⟩
  · cases words with
    | nil => cases read
    | cons script words =>
      cases read
      exact ⟨quiet, script :: scripts, .expression script expression later, by simp⟩
  · obtain ⟨letters, same⟩ := List.head?_eq_some_iff.mp dash.2
    rw [same] at read
    obtain ⟨flags, fits, read⟩ := bundle_some read
    rcases read with ⟨own, rfl, rfl⟩ | ⟨own, script, rfl, rfl⟩
    · have text : word.text = '-' :: flags := by rw [same, ← own]; rfl
      exact ⟨_, scripts, .flags text fits later, by simp [Bool.or_assoc]⟩
    · have text : word.text = '-' :: flags ++ ['e'] := by
        rw [same, List.cons_append, ← own]
        rfl
      exact ⟨_, _, .script script text fits later, by simp [Bool.or_assoc]⟩

/-- The options and operands that the guard reads are those of the arguments. -/
theorem sedArguments_of_readArguments {options next : Sed.Options}
    {words operands found : List Word}
    (read : Sed.readArguments options operands words = some (next, found)) :
    ∃ quiet scripts more, SedArguments words quiet scripts more ∧
      next = ⟨options.quiet || quiet, options.scripts ++ scripts⟩ ∧ found = operands ++ more := by
  fun_induction Sed.readArguments options operands words with
  | case1 options operands =>
    cases read
    exact ⟨false, [], [], .none, by simp, by simp⟩
  | case2 options operands word words dashes =>
    cases read
    exact ⟨false, [], words, .operands words dashes, by simp, rfl⟩
  | case3 => cases read
  | case4 options operands word words dashes dash next rest own ih =>
    obtain ⟨quiet, scripts, more, later, rfl, rfl⟩ := ih read
    obtain ⟨quiet', scripts', all, same⟩ := sedArguments_of_read dash own later
    exact ⟨quiet', scripts', more, all, same, rfl⟩
  | case5 options operands word words dashes dash ih =>
    obtain ⟨quiet, scripts, more, later, rfl, rfl⟩ := ih read
    refine ⟨quiet, scripts, word :: more, .operand ?_ later, rfl, by simp⟩
    by_contra other
    simp only [not_or, not_not] at other
    obtain ⟨letters, same⟩ := List.head?_eq_some_iff.mp other.1
    cases letters with
    | nil => exact other.2 same
    | cons letter letters => exact dash ⟨by simp [same], other.1⟩

theorem sedReads_of_printsOnly {arguments : List Word}
    (printing : Sed.printsOnly arguments = true) : SedReads arguments := by
  unfold Sed.printsOnly at printing
  split at printing
  · cases printing
  · next options operands read =>
    obtain ⟨quiet, scripts, more, given, rfl, rfl⟩ := sedArguments_of_readArguments read
    simp only [Bool.false_or, List.nil_append, Bool.and_eq_true, decide_eq_true_eq,
      ne_eq] at printing
    obtain ⟨⟨rfl, nonempty⟩, all⟩ := printing
    obtain ⟨script, rest, same⟩ := List.exists_cons_of_ne_nil nonempty
    rw [same] at all
    refine ⟨scripts, _, given, script, rest, same, fun own mem => ?_⟩
    have prints := List.all_eq_true.mp all own mem
    simp only [Bool.and_eq_true, Bool.not_eq_true'] at prints
    exact ⟨prints.1, fun functions reads => Sed.reads_prints prints.2 reads⟩

theorem reads_of_refusal {words : List Word} (allowed : refusal words = none)
    (named : words ≠ []) :
    ∃ name arguments, words = name :: arguments ∧ Reads name arguments := by
  obtain ⟨name, arguments, rfl⟩ := List.exists_cons_of_ne_nil named
  refine ⟨name, arguments, rfl, ?_⟩
  unfold refusal at allowed
  dsimp only at allowed
  split_ifs at allowed with writing impossible jj git reads sed prints listed
  · cases impossible
  all_goals
    have quiet : ∀ word ∈ arguments, writes word.text = false := fun word mem => by
      simpa using List.any_eq_false.mp (by simpa using writing) word mem
  all_goals
    refine ⟨fun word mem listed => ?_, ?_⟩
    · have own := quiet word mem
      rw [writes, List.contains_iff_mem.mpr listed] at own
      cases own
  · exact .inr (.inl ⟨jj, jjReads_of_jjRefusal allowed⟩)
  · simp only [Bool.and_eq_true, Bool.not_eq_true', List.any_eq_false, Bool.not_eq_true] at reads
    obtain ⟨rest, found, listed⟩ := (Option.any_eq_true _ _).mp reads.2
    exact .inr (.inr (.inl ⟨git, gitReads_of_subcommand quiet reads.1 found listed⟩))
  · exact .inr (.inr (.inr ⟨sed, sedReads_of_printsOnly prints⟩))
  · exact .inl (List.contains_iff_mem.mp listed)

end ProgressiveReviewer.Guard
