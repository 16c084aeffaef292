import ProgressiveReviewer.Guard.Sed

/-! Every sed reads a script that the guard accepts as `p` commands. A regex that it ends later
than the guard ends at a slash where the guard ends one too: a bracket is left at a `]`, and
all of these stand inside the guard's regexes. -/

namespace ProgressiveReviewer.Guard.Sed

open Explore (isWhitespace)

/-- Where the guard stands in a script it accepts. -/
inductive Position where
  | start
  | first
  | second
  | letter
  | finish
  deriving DecidableEq

/-- What is left of a script that the guard accepts. -/
inductive Accepted : Position → List Char → Prop where
  | blank {position : Position} {character : Char} {text : List Char} : position ≠ .first →
      position ≠ .second → isWhitespace character → Accepted position text →
      Accepted position (character :: text)
  | bare {text : List Char} : Accepted .letter text → Accepted .start text
  | addressed {text rest : List Char} : address text false = some rest →
      Accepted .first rest → Accepted .start text
  | comma {text : List Char} : Accepted .second text → Accepted .first (',' :: text)
  | single {text : List Char} : Accepted .letter text → Accepted .first text
  | ending {text rest : List Char} : address text true = some rest → Accepted .letter rest →
      Accepted .second text
  | print {text : List Char} : Accepted .finish text → Accepted .letter ('p' :: text)
  | done : Accepted .finish []
  | next {text : List Char} : Accepted .start text → Accepted .finish (';' :: text)
  | last {text : List Char} : Accepted .finish text → Accepted .finish (';' :: text)

theorem Accepted.trimmed {position : Position} (notFirst : position ≠ .first)
    (notSecond : position ≠ .second) {text : List Char}
    (accepted : Accepted position (trimStart text)) : Accepted position text := by
  induction text with
  | nil => exact accepted
  | cons character text ih =>
    rw [trimStart, List.dropWhile_cons] at accepted
    split_ifs at accepted with white
    · exact .blank notFirst notSecond white (ih accepted)
    · exact accepted

theorem accepted_blanks {text : List Char} (white : text.all isWhitespace = true) :
    Accepted .finish text := by
  induction text with
  | nil => exact .done
  | cons character text ih =>
    rw [List.all_cons, Bool.and_eq_true] at white
    exact .blank (by decide) (by decide) white.1 (ih white.2)

theorem eq_cons_of_strip {first : Char} {text rest : List Char}
    (strip : [first].isPrefixOf? text = some rest) : text = first :: rest :=
  (List.isPrefixOf?_eq_some_iff_append_eq.mp strip).symm

theorem accepted_of_addresses {text rest : List Char} (read : addresses text = some rest)
    (accepted : Accepted .letter rest) : Accepted .start text := by
  unfold addresses at read
  split at read
  · next after own =>
    refine .addressed own ?_
    split at read
    · next last strip =>
      rw [eq_cons_of_strip strip]
      exact .comma (.ending read accepted)
    · cases read
      exact .single accepted
  · cases read
    exact .bare accepted

theorem accepted_of_printCommand {text rest : List Char} (read : printCommand text = some rest)
    (accepted : Accepted .finish rest) : Accepted .start text := by
  obtain ⟨after, own, strip⟩ := Option.bind_eq_some_iff.mp read
  refine accepted_of_addresses own (Accepted.trimmed (by decide) (by decide) ?_)
  rw [eq_cons_of_strip strip]
  exact .print accepted

theorem accepted_of_prints {script : List Char} (printing : prints script = true) :
    Accepted .start script := by
  fun_induction prints script with
  | case1 => cases printing
  | case2 script after read next strip white =>
    refine Accepted.trimmed (by decide) (by decide) (accepted_of_printCommand read ?_)
    refine Accepted.trimmed (by decide) (by decide) ?_
    rw [eq_cons_of_strip strip]
    exact .last (accepted_blanks white)
  | case3 script after read next strip more ih =>
    refine Accepted.trimmed (by decide) (by decide) (accepted_of_printCommand read ?_)
    refine Accepted.trimmed (by decide) (by decide) ?_
    rw [eq_cons_of_strip strip]
    exact .next (ih printing)
  | case4 script after read none =>
    refine Accepted.trimmed (by decide) (by decide) (accepted_of_printCommand read ?_)
    exact accepted_blanks printing

/-- What may follow a regex of the guard's. -/
def Ended (rest : List Char) : Prop := Accepted .first rest ∨ Accepted .letter rest

/-- A place inside one of the guard's regexes, between its characters. -/
def InRegex (text : List Char) : Prop := ∃ rest, regexEnd text = some rest ∧ Ended rest

/-- After each closing bracket the guard is inside a regex. -/
def Closed (text : List Char) : Prop := ∀ lead tail, text = lead ++ ']' :: tail → InRegex tail

theorem Closed.tail {character : Char} {text : List Char} (closed : Closed (character :: text)) :
    Closed text := by
  intro lead tail same
  exact closed (character :: lead) tail (by rw [same]; rfl)

theorem closed_cons {character : Char} {text : List Char} (closed : Closed text)
    (own : character = ']' → InRegex text) : Closed (character :: text) := by
  intro lead tail same
  cases lead with
  | nil =>
    obtain ⟨rfl, rfl⟩ := List.cons.inj same
    exact own rfl
  | cons other lead => exact closed lead tail (List.cons.inj same).2

theorem closed_append {lead text : List Char} (closed : Closed text) (free : ']' ∉ lead) :
    Closed (lead ++ text) := by
  induction lead with
  | nil => exact closed
  | cons character lead ih =>
    obtain ⟨own, later⟩ := not_or.mp (mt List.mem_cons.mpr free)
    exact closed_cons (ih later) fun same => absurd same.symm own

theorem closed_of_regexEnd {text rest : List Char} (read : regexEnd text = some rest)
    (ended : Ended rest) (closed : Closed rest) : Closed text := by
  fun_induction regexEnd text with
  | case1 => cases read
  | case2 after =>
    cases read
    exact closed_cons closed fun same => by cases same
  | case3 => cases read
  | case4 character more ih =>
    exact closed_cons (closed_cons (ih read) fun _ => ⟨rest, read, ended⟩) fun same => by
      cases same
  | case5 character more _ _ _ ih =>
    exact closed_cons (ih read) fun _ => ⟨rest, read, ended⟩

theorem digits_some {text rest : List Char} (read : digits text = some rest) :
    ∃ count, text = count ++ rest ∧ ∀ digit ∈ count, digit.isDigit = true := by
  unfold digits at read
  dsimp only at read
  split_ifs at read
  cases read
  exact ⟨text.takeWhile Char.isDigit, List.takeWhile_append_dropWhile.symm,
    fun digit mem => List.all_eq_true.mp List.all_takeWhile digit mem⟩

/-- The characters of a line number, a step or a count. -/
def isNumeric (character : Char) : Bool :=
  character.isDigit || character == '~' || character == '+'

theorem isNumeric_of_isDigit {character : Char} (digit : character.isDigit = true) :
    isNumeric character = true := by
  simp [isNumeric, digit]

theorem lineNumber_some {text rest : List Char} (read : lineNumber text = some rest) :
    ∃ count, text = count ++ rest ∧ ∀ character ∈ count, isNumeric character = true := by
  obtain ⟨after, own, rfl⟩ := Option.map_eq_some_iff.mp read
  obtain ⟨first, rfl, firstDigits⟩ := digits_some own
  cases step : (['~'].isPrefixOf? after).bind digits with
  | none => exact ⟨first, rfl, fun digit mem => isNumeric_of_isDigit (firstDigits digit mem)⟩
  | some later =>
    obtain ⟨stepped, strip, own⟩ := Option.bind_eq_some_iff.mp step
    obtain ⟨second, rfl, secondDigits⟩ := digits_some own
    refine ⟨first ++ '~' :: second, by simp [eq_cons_of_strip strip], ?_⟩
    intro character mem
    rcases List.mem_append.mp mem with mem | mem
    · exact isNumeric_of_isDigit (firstDigits character mem)
    · rcases List.mem_cons.mp mem with rfl | mem
      · rfl
      · exact isNumeric_of_isDigit (secondDigits character mem)

/-- The three shapes of an address that the guard reads. -/
theorem address_cases {text rest : List Char} {isEnd : Bool}
    (read : address text isEnd = some rest) :
    (∃ regex, text = '/' :: regex ∧ regexEnd regex = some rest) ∨ text = '$' :: rest ∨
      ∃ character count, isNumeric character = true ∧ text = character :: count ++ rest ∧
        ∀ character ∈ count, isNumeric character = true := by
  unfold address at read
  split at read
  · cases read
  · next first more =>
    split_ifs at read with slash last relative
    · exact .inl ⟨more, by rw [slash], read⟩
    · cases read
      exact .inr (.inl (by rw [last]))
    · obtain ⟨count, rfl, allDigits⟩ := digits_some read
      refine .inr (.inr ⟨first, count, ?_, rfl, fun digit mem =>
        isNumeric_of_isDigit (allDigits digit mem)⟩)
      rcases relative.2 with rfl | rfl <;> rfl
    · have shorter := lineNumber_length read
      obtain ⟨count, same, numeric⟩ := lineNumber_some read
      cases count with
      | nil =>
        rw [same] at shorter
        exact absurd shorter (lt_irrefl _)
      | cons character count =>
        exact .inr (.inr ⟨character, count, numeric character List.mem_cons_self, same,
          fun other mem => numeric other (List.mem_cons_of_mem _ mem)⟩)

theorem closed_of_address {text rest : List Char} {isEnd : Bool}
    (read : address text isEnd = some rest) (ended : Ended rest) (closed : Closed rest) :
    Closed text := by
  rcases address_cases read with ⟨regex, rfl, own⟩ | rfl | ⟨character, count, own, rfl, numeric⟩
  · exact closed_cons (closed_of_regexEnd own ended closed) fun same => by cases same
  · exact closed_cons closed fun same => by cases same
  · refine closed_append closed fun mem => ?_
    rcases List.mem_cons.mp mem with rfl | mem
    · cases own
    · cases numeric _ mem

theorem Accepted.closed {position : Position} {text : List Char}
    (accepted : Accepted position text) : Closed text := by
  induction accepted with
  | blank _ _ white _ ih =>
    refine closed_cons ih fun same => ?_
    rw [same] at white
    cases white
  | bare _ ih => exact ih
  | addressed read later ih => exact closed_of_address read (.inl later) ih
  | comma _ ih => exact closed_cons ih fun same => by cases same
  | single _ ih => exact ih
  | ending read later ih => exact closed_of_address read (.inr later) ih
  | print _ ih => exact closed_cons ih fun same => by cases same
  | done => exact fun lead tail same => by simp at same
  | next _ ih => exact closed_cons ih fun same => by cases same
  | last _ ih => exact closed_cons ih fun same => by cases same

theorem InRegex.closed {text : List Char} (inRegex : InRegex text) : Closed text := by
  obtain ⟨rest, read, ended⟩ := inRegex
  exact closed_of_regexEnd read ended (ended.elim Accepted.closed Accepted.closed)

/-- A sed that starts where the guard is inside a regex, or in a bracket anywhere in the
script, ends the regex where the guard ends one. -/
theorem Regex.ended {inside : Bool} {text rest : List Char} (regex : Regex inside text rest)
    (within : if inside then Closed text else InRegex text) : Ended rest := by
  induction regex with
  | close rest =>
    obtain ⟨after, read, ended⟩ := within
    rw [regexEnd] at read
    cases read
    exact ended
  | escape character _ ih =>
    obtain ⟨after, read, ended⟩ := within
    rw [regexEnd] at read
    exact ih ⟨after, read, ended⟩
  | plain slash backslash _ ih =>
    obtain ⟨after, read, ended⟩ := within
    rw [regexEnd] at read
    · exact ih ⟨after, read, ended⟩
    · exact slash
    · exact fun same => absurd same backslash
    · exact fun _ _ same => absurd same backslash
  | enter _ ih =>
    obtain ⟨after, read, ended⟩ := within
    rw [regexEnd] at read
    · exact ih (InRegex.closed ⟨after, read, ended⟩)
    · decide
    · exact fun same => by cases same
    · exact fun _ _ same => by cases same
  | inside character _ ih => exact ih (Closed.tail within)
  | leave _ ih => exact ih (within [] _ rfl)

/-- Neither a blank nor a function: nothing reads a command there. -/
def isMark (character : Char) : Bool := !isWhitespace character && !isFunction character

theorem isMark_of_isNumeric {character : Char} (numeric : isNumeric character = true) :
    isMark character = true := by
  simp only [isNumeric, Bool.or_eq_true, beq_iff_eq] at numeric
  rcases numeric with (digit | rfl) | rfl
  · have white : isWhitespace character = false := by
      simp only [Char.isDigit, Bool.and_eq_true, decide_eq_true_eq, ge_iff_le,
        UInt32.le_iff_toNat_le] at digit
      have low : 48 ≤ character.toNat := digit.1
      have high : character.toNat ≤ 57 := digit.2
      simp [isWhitespace]
      omega
    simp [isMark, isFunction, digit, white]
  · decide
  · decide

/-- How an address may start. -/
def startsAddress (character : Char) : Bool :=
  isNumeric character || character == '/' || character == '$' || character == '\\'

theorem isMark_of_startsAddress {character : Char} (starts : startsAddress character = true) :
    isMark character = true := by
  simp only [startsAddress, Bool.or_eq_true, beq_iff_eq] at starts
  rcases starts with ((numeric | rfl) | rfl) | rfl
  · exact isMark_of_isNumeric numeric
  · decide
  · decide
  · decide

theorem startsAddress_of_isNumeric {character : Char} (numeric : isNumeric character = true) :
    startsAddress character = true := by
  simp [startsAddress, numeric]

theorem starts_of_address {text rest : List Char} {isEnd : Bool}
    (read : address text isEnd = some rest) :
    ∃ character more, text = character :: more ∧ startsAddress character = true := by
  rcases address_cases read with ⟨regex, rfl, own⟩ | rfl | ⟨character, count, own, rfl, numeric⟩
  · exact ⟨_, _, rfl, by decide⟩
  · exact ⟨_, _, rfl, by decide⟩
  · exact ⟨_, _, rfl, startsAddress_of_isNumeric own⟩

theorem ne_of_isMark {character function : Char} {text blanks rest : List Char}
    (mark : isMark character = true) (white : ∀ blank ∈ blanks, isWhitespace blank = true)
    (named : isFunction function = true) : character :: text ≠ blanks ++ function :: rest := by
  intro same
  simp only [isMark, Bool.and_eq_true, Bool.not_eq_true'] at mark
  cases blanks with
  | nil =>
    rw [(List.cons.inj same).1, named] at mark
    exact Bool.noConfusion mark.2
  | cons blank blanks =>
    rw [(List.cons.inj same).1, white blank List.mem_cons_self] at mark
    exact Bool.noConfusion mark.1

theorem address_ne {text rest blanks after : List Char} {isEnd : Bool} {function : Char}
    (read : address text isEnd = some rest)
    (white : ∀ blank ∈ blanks, isWhitespace blank = true) (named : isFunction function = true) :
    text ≠ blanks ++ function :: after := by
  obtain ⟨character, more, rfl, starts⟩ := starts_of_address read
  exact ne_of_isMark (isMark_of_startsAddress starts) white named

/-- The only function that stands behind blanks. -/
theorem Accepted.function {position : Position} {text blanks rest : List Char} {function : Char}
    (accepted : Accepted position text) (same : text = blanks ++ function :: rest)
    (white : ∀ blank ∈ blanks, isWhitespace blank = true) (named : isFunction function = true) :
    function = 'p' ∧ Accepted .finish rest := by
  induction accepted generalizing blanks with
  | blank notFirst notSecond own _ ih =>
    cases blanks with
    | nil =>
      rw [← (List.cons.inj same).1] at named
      simp [isFunction, own] at named
    | cons blank blanks =>
      exact ih (List.cons.inj same).2 fun other mem => white other (List.mem_cons_of_mem _ mem)
  | bare _ ih => exact ih same white
  | addressed read later ih => exact absurd same (address_ne read white named)
  | comma _ ih => exact absurd same (ne_of_isMark (by decide) white named)
  | single _ ih => exact ih same white
  | ending read later ih => exact absurd same (address_ne read white named)
  | print later ih =>
    cases blanks with
    | nil =>
      obtain ⟨rfl, rfl⟩ := List.cons.inj same
      exact ⟨rfl, later⟩
    | cons blank blanks =>
      have own := white blank List.mem_cons_self
      rw [← (List.cons.inj same).1] at own
      cases own
  | done => simp at same
  | next _ ih => exact absurd same (ne_of_isMark (by decide) white named)
  | last _ ih => exact absurd same (ne_of_isMark (by decide) white named)

theorem Accepted.letter_head {character : Char} {text : List Char}
    (accepted : Accepted .letter (character :: text)) :
    isWhitespace character = true ∧ Accepted .letter text ∨ character = 'p' := by
  cases accepted with
  | blank _ _ white later => exact .inl ⟨white, later⟩
  | print _ => exact .inr rfl

theorem Ended.head {character : Char} {text : List Char} (ended : Ended (character :: text)) :
    isWhitespace character = true ∨ character = ',' ∨ character = 'p' := by
  rcases ended with first | letter
  · cases first with
    | blank notFirst => exact absurd rfl notFirst
    | comma _ => exact .inr (.inl rfl)
    | single letter => exact letter.letter_head.imp And.left .inr
  · exact letter.letter_head.imp And.left .inr

theorem Ended.not_numeric {character : Char} {text : List Char}
    (ended : Ended (character :: text)) : isNumeric character = false := by
  rcases ended.head with white | rfl | rfl
  · rw [Bool.eq_false_iff]
    intro numeric
    have mark := isMark_of_isNumeric numeric
    simp [isMark, white] at mark
  · rfl
  · rfl

/-- A sed that stops among the digits of an address finds no command there. -/
theorem ended_of_numeric {lead own out rest : List Char} (same : lead ++ out = own ++ rest)
    (leadNumeric : ∀ character ∈ lead, isNumeric character = true)
    (ownNumeric : ∀ character ∈ own, isNumeric character = true) (ended : Ended rest) :
    Ended out ∨ ∃ character more, out = character :: more ∧ startsAddress character = true := by
  rcases List.append_eq_append_iff.mp same with ⟨left, rfl, rfl⟩ | ⟨passed, rfl, rfl⟩
  · cases left with
    | nil => exact .inl ended
    | cons character left =>
      have numeric := ownNumeric character (by simp)
      exact .inr ⟨character, _, rfl, startsAddress_of_isNumeric numeric⟩
  · cases passed with
    | nil => exact .inl ended
    | cons character passed =>
      have numeric := leadNumeric character (by simp)
      rw [List.cons_append] at ended
      rw [ended.not_numeric] at numeric
      cases numeric

/-- What follows the address that a sed reads where the guard reads one. -/
theorem Address.ended {text out rest : List Char} {isEnd : Bool}
    (read : address text isEnd = some rest) (ended : Ended rest) (sed : Address text out) :
    Ended out ∨ ∃ character more, out = character :: more ∧ startsAddress character = true := by
  have numbered : ∀ {lead : List Char}, text = lead ++ out → lead ≠ [] →
      (∀ character ∈ lead, isNumeric character = true) →
      Ended out ∨ ∃ character more, out = character :: more ∧ startsAddress character = true := by
    intro lead same nonempty numeric
    obtain ⟨first, lead, rfl⟩ := List.exists_cons_of_ne_nil nonempty
    have own := numeric first List.mem_cons_self
    rcases address_cases read with ⟨regex, rfl, -⟩ | rfl | ⟨character, count, start, rfl, all⟩
    · rw [← (List.cons.inj same).1] at own
      cases own
    · rw [← (List.cons.inj same).1] at own
      cases own
    · exact ended_of_numeric same.symm numeric (List.forall_mem_cons.mpr ⟨start, all⟩) ended
  cases sed with
  | regex sed flagged =>
    next text flags =>
    rcases address_cases read with ⟨regex, same, own⟩ | same | ⟨character, count, start, same, -⟩
    · obtain rfl := (List.cons.inj same).2
      have after := sed.ended ⟨rest, own, ended⟩
      cases flags with
      | nil => exact .inl after
      | cons flag flags =>
        rcases flagged flag List.mem_cons_self with rfl | rfl
        · rcases after.head with white | other | other <;> cases ‹_›
        · rcases after.head with white | other | other <;> cases ‹_›
    · cases (List.cons.inj same).1
    · rw [← (List.cons.inj same).1] at start
      cases start
  | custom text =>
    rcases address_cases read with ⟨regex, same, own⟩ | same | ⟨character, count, start, same, -⟩
    · cases (List.cons.inj same).1
    · cases (List.cons.inj same).1
    · rw [← (List.cons.inj same).1] at start
      cases start
  | last =>
    rcases address_cases read with ⟨regex, same, own⟩ | same | ⟨character, count, start, same, -⟩
    · cases (List.cons.inj same).1
    · rw [(List.cons.inj same).2]
      exact .inl ended
    · rw [← (List.cons.inj same).1] at start
      cases start
  | number _ nonempty digits =>
    exact numbered rfl nonempty fun digit mem => isNumeric_of_isDigit (digits digit mem)
  | step _ nonempty digits =>
    next first count =>
    refine numbered rfl (by simp) fun character mem => ?_
    rcases List.mem_append.mp mem with mem | mem
    · exact isNumeric_of_isDigit (digits character (List.mem_append_left _ mem))
    · rcases List.mem_cons.mp mem with rfl | mem
      · rfl
      · exact isNumeric_of_isDigit (digits character (List.mem_append_right _ mem))
  | relative _ signed digits =>
    next sign count =>
    refine numbered rfl (by simp) fun character mem => ?_
    rcases List.mem_cons.mp mem with rfl | mem
    · rcases signed with rfl | rfl <;> rfl
    · exact isNumeric_of_isDigit (digits character mem)

theorem not_skipped {character : Char} (starts : startsAddress character = true) :
    ¬(isWhitespace character = true ∨ character = ';') := by
  rintro (white | rfl)
  · have mark := isMark_of_startsAddress starts
    simp [isMark, white] at mark
  · cases starts

theorem Address.starts {text out : List Char} (sed : Address text out) :
    ∃ character more, text = character :: more ∧ startsAddress character = true := by
  cases sed with
  | regex _ _ => exact ⟨_, _, rfl, by decide⟩
  | custom text => exact ⟨_, _, rfl, by decide⟩
  | last => exact ⟨_, _, rfl, by decide⟩
  | number _ nonempty digits =>
    obtain ⟨first, count, rfl⟩ := List.exists_cons_of_ne_nil nonempty
    have own := digits first List.mem_cons_self
    exact ⟨first, _, rfl, startsAddress_of_isNumeric (isNumeric_of_isDigit own)⟩
  | step _ nonempty digits =>
    next first count =>
    obtain ⟨digit, first, rfl⟩ := List.exists_cons_of_ne_nil nonempty
    have own := digits digit (by simp)
    exact ⟨digit, _, rfl, startsAddress_of_isNumeric (isNumeric_of_isDigit own)⟩
  | relative _ signed _ =>
    refine ⟨_, _, rfl, ?_⟩
    rcases signed with rfl | rfl <;> decide

/-- Where a sed may look for its next command. -/
def Between (text : List Char) : Prop := Accepted .start text ∨ Accepted .finish text

theorem Between.skip {lead text : List Char} (between : Between (lead ++ text))
    (skipped : ∀ character ∈ lead, isWhitespace character = true ∨ character = ';') :
    Between text := by
  induction lead with
  | nil => exact between
  | cons character lead ih =>
    refine ih ?_ fun other mem => skipped other (List.mem_cons_of_mem _ mem)
    have own := skipped character List.mem_cons_self
    rcases between with start | finish
    · cases start with
      | blank _ _ _ later => exact .inl later
      | bare letter =>
        rcases letter.letter_head with ⟨-, later⟩ | rfl
        · exact .inl (.bare later)
        · rcases own with white | other <;> cases ‹_›
      | addressed read later =>
        obtain ⟨first, more, same, starts⟩ := starts_of_address read
        rw [← (List.cons.inj same).1] at starts
        exact absurd own (not_skipped starts)
    · cases finish with
      | blank _ _ _ later => exact .inr later
      | next later => exact .inl later
      | last later => exact .inr later

theorem Accepted.second {text : List Char} (accepted : Accepted .second text) :
    ∃ rest, address text true = some rest ∧ Accepted .letter rest := by
  cases accepted with
  | blank _ notSecond => exact absurd rfl notSecond
  | ending read later => exact ⟨_, read, later⟩

/-- A sed reads an address only where the guard reads one. -/
theorem Address.read {text out : List Char} (sed : Address text out) (between : Between text) :
    ∃ rest, address text false = some rest ∧ Accepted .first rest := by
  obtain ⟨character, more, rfl, starts⟩ := sed.starts
  have skipped := not_skipped starts
  rcases between with start | finish
  · cases start with
    | blank _ _ white _ => exact absurd (.inl white) skipped
    | bare letter =>
      rcases letter.letter_head with ⟨white, -⟩ | rfl
      · exact absurd (.inl white) skipped
      · cases starts
    | addressed read later => exact ⟨_, read, later⟩
  · cases finish with
    | blank _ _ white _ => exact absurd (.inl white) skipped
    | next _ => cases starts
    | last _ => cases starts

theorem Ended.function {text blanks rest : List Char} {function : Char} (ended : Ended text)
    (same : text = blanks ++ function :: rest)
    (white : ∀ blank ∈ blanks, isWhitespace blank = true) (named : isFunction function = true) :
    function = 'p' ∧ Accepted .finish rest := by
  rcases ended with first | letter
  · exact first.function same white named
  · exact letter.function same white named

/-- The comma of a range that a sed reads is one that the guard reads. -/
theorem Ended.comma {text before after last : List Char} (ended : Ended text)
    (same : text = before ++ ',' :: after ++ last)
    (white : ∀ blank ∈ before ++ after, isWhitespace blank = true) :
    Accepted .second (after ++ last) := by
  have notLetter : ∀ {text before : List Char}, Accepted .letter text →
      text = before ++ ',' :: after ++ last → (∀ blank ∈ before, isWhitespace blank = true) →
      False := by
    intro text before letter same white
    induction before generalizing text with
    | nil =>
      rw [same] at letter
      rcases letter.letter_head with ⟨other, -⟩ | other <;> cases other
    | cons blank before ih =>
      rw [same] at letter
      rcases letter.letter_head with ⟨-, later⟩ | rfl
      · exact ih later rfl fun other mem => white other (List.mem_cons_of_mem _ mem)
      · cases white 'p' List.mem_cons_self
  have leads : ∀ blank ∈ before, isWhitespace blank = true :=
    fun blank mem => white blank (List.mem_append_left _ mem)
  rcases ended with first | letter
  · cases first with
    | blank notFirst => exact absurd rfl notFirst
    | comma later =>
      cases before with
      | nil =>
        rw [← show _ = after ++ last from (List.cons.inj same).2]
        exact later
      | cons blank before =>
        have own := leads blank List.mem_cons_self
        rw [← (List.cons.inj same).1] at own
        cases own
    | single letter => exact (notLetter letter same leads).elim
  · exact (notLetter letter same leads).elim

/-- What follows the addresses that a sed reads before a command. -/
theorem Addresses.function {text blanks rest : List Char} {function : Char}
    (sed : Addresses text (blanks ++ function :: rest)) (between : Between text)
    (white : ∀ blank ∈ blanks, isWhitespace blank = true) (named : isFunction function = true) :
    function = 'p' ∧ Accepted .finish rest := by
  have settled : ∀ {out : List Char},
      (Ended out ∨ ∃ character more, out = character :: more ∧ startsAddress character = true) →
      out = blanks ++ function :: rest → function = 'p' ∧ Accepted .finish rest := by
    rintro out (ended | ⟨character, more, rfl, starts⟩) same
    · exact ended.function same white named
    · exact absurd same (ne_of_isMark (isMark_of_startsAddress starts) white named)
  generalize whole : blanks ++ function :: rest = out at sed
  cases sed with
  | none =>
    rcases between with start | finish
    · exact start.function whole.symm white named
    · exact finish.function whole.symm white named
  | one address =>
    obtain ⟨after, read, first⟩ := address.read between
    exact settled (address.ended read (.inl first)) whole.symm
  | range address blank second =>
    next before after last =>
    obtain ⟨_, read, first⟩ := address.read between
    rcases address.ended read (.inl first) with ended | ⟨character, more, same, starts⟩
    · obtain ⟨_, readEnd, letter⟩ := (ended.comma rfl blank).second
      cases after with
      | nil => exact settled (second.ended readEnd (.inr letter)) whole.symm
      | cons other after =>
        obtain ⟨character, more, same, starts⟩ := starts_of_address readEnd
        have own := blank other (by simp)
        rw [(List.cons.inj same).1] at own
        exact absurd (.inl own) (not_skipped starts)
    · cases before with
      | nil =>
        rw [← (List.cons.inj same).1] at starts
        cases starts
      | cons other before =>
        have own := blank other (by simp)
        rw [(List.cons.inj same).1] at own
        exact absurd (.inl own) (not_skipped starts)

/-- Every command that any sed reads in a script that the guard accepts is `p`. -/
theorem reads_prints {script functions : List Char} (printing : prints script = true)
    (reads : Reads script functions) : ∀ function ∈ functions, function = 'p' := by
  have run : ∀ {script functions : List Char}, Reads script functions → Between script →
      ∀ function ∈ functions, function = 'p' := by
    intro script functions reads between
    induction reads with
    | stop script => simp
    | command skipped addresses white named _ ih =>
      have only := addresses.function (between.skip skipped) white named
      exact List.forall_mem_cons.mpr ⟨only.1, ih (.inr only.2)⟩
  exact run reads (.inl (accepted_of_prints printing))

/-- Two commands to the guard, one with a bracket to some seds. -/
theorem reads_prints_bracket : Reads "/[/p;/]/p".toList ['p'] ∧ (['p'].all (· = 'p')) = true := by
  have printing : prints "/[/p;/]/p".toList = true := by decide +kernel
  have bracket : Regex true "/p;/]/p".toList ['p'] :=
    .inside '/' (.inside 'p' (.inside ';' (.inside '/' (.leave (.close ['p'])))))
  have address : Addresses "/[/p;/]/p".toList (([] : List Char) ++ 'p' :: []) :=
    .one (.regex (show Regex false _ ([] ++ ['p']) from .enter bracket) (by simp))
  have lead : ∀ character ∈ ([] : List Char), isWhitespace character ∨ character = ';' := by simp
  have reads : Reads "/[/p;/]/p".toList ['p'] :=
    .command lead address (by simp) (by decide) (.stop [])
  exact ⟨reads, List.all_eq_true.mpr fun function mem =>
    decide_eq_true (reads_prints printing reads function mem)⟩

end ProgressiveReviewer.Guard.Sed
