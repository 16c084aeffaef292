import ProgressiveReviewer.Hunks.Classify
import ProgressiveReviewer.Hunks.DiffText

/-! Decoding the bytes of a text gives the text back, and what a parser reads of a line is the
text of its row. -/

namespace ProgressiveReviewer.Hunks

open Library Library.Extent
open Parsers

/-- The characters of some bytes. -/
def decode (bytes : Bytes) : List Char := utf8Chars bytes.length bytes

theorem decode_ascii {char : Char} (ascii : char.toNat < 128) (rest : Bytes) :
    decode (UInt8.ofNat char.toNat :: rest) = char :: decode rest := by
  have value : (UInt8.ofNat char.toNat).toNat = char.toNat := by
    simp [Nat.mod_eq_of_lt (show char.toNat < 256 by omega)]
  have small : UInt8.ofNat char.toNat < 0x80 := by
    rw [UInt8.lt_iff_toNat_lt, value]
    exact ascii
  rw [decode, List.length_cons, utf8Chars, if_pos small, value, Char.ofNat_toNat]
  rfl

theorem utf8Chars_enough {bytes : Bytes} {fuel : Nat} (enough : bytes.length ≤ fuel) :
    utf8Chars fuel bytes = decode bytes := utf8Chars_fuel bytes fuel enough

/-- The bytes after the first one of a longer character. -/
theorem decode_lead {lead low high : UInt8} {more bits : Nat} (long : ¬ lead < 0x80)
    (own : utf8Lead lead = some (low, high, more, bits)) (rest : Bytes) :
    decode (lead :: rest) =
      (utf8Rest low high more bits rest).1 :: decode (utf8Rest low high more bits rest).2 := by
  rw [decode, List.length_cons, utf8Chars, if_neg long, own]
  exact congrArg _ (utf8Chars_enough (utf8Rest_length low high more bits rest))

theorem toNat_byte {n : Nat} (small : n < 256) : (UInt8.ofNat n).toNat = n := by
  simp [Nat.mod_eq_of_lt small]

/-- A byte after the first one adds its six bits. -/
theorem utf8Rest_last {low high : UInt8} {n bits value : Nat} (rest : Bytes)
    (inside : low ≤ UInt8.ofNat (n % 64 + 128) ∧ UInt8.ofNat (n % 64 + 128) ≤ high)
    (sum : bits * 64 + n % 64 = value) :
    utf8Rest low high 0 bits (UInt8.ofNat (n % 64 + 128) :: rest) = (Char.ofNat value, rest) := by
  rw [utf8Rest, if_pos inside, toNat_byte (by omega), ← sum, Nat.add_sub_cancel]

theorem utf8Rest_more {low high : UInt8} {n more bits value : Nat} (rest : Bytes)
    (inside : low ≤ UInt8.ofNat (n % 64 + 128) ∧ UInt8.ofNat (n % 64 + 128) ≤ high)
    (sum : bits * 64 + n % 64 = value) :
    utf8Rest low high (more + 1) bits (UInt8.ofNat (n % 64 + 128) :: rest) =
      utf8Rest 0x80 0xBF more value rest := by
  rw [utf8Rest, if_pos inside, toNat_byte (by omega), ← sum, Nat.add_sub_cancel]

theorem follows (n : Nat) :
    (0x80 : UInt8) ≤ UInt8.ofNat (n % 64 + 128) ∧ UInt8.ofNat (n % 64 + 128) ≤ 0xBF := by
  rw [UInt8.le_iff_toNat_le, UInt8.le_iff_toNat_le, toNat_byte (by omega)]
  exact ⟨Nat.le_add_left _ _, show n % 64 + 128 ≤ 191 by omega⟩

/-- What a first byte says, by its value. -/
theorem utf8Lead_ofNat {k : Nat} (small : k < 256) : utf8Lead (UInt8.ofNat k) =
    if 0xC2 ≤ k ∧ k ≤ 0xDF then some (0x80, 0xBF, 0, k - 0xC0)
    else if k = 0xE0 then some (0xA0, 0xBF, 1, 0)
    else if k = 0xED then some (0x80, 0x9F, 1, 0xD)
    else if 0xE1 ≤ k ∧ k ≤ 0xEF then some (0x80, 0xBF, 1, k - 0xE0)
    else if k = 0xF0 then some (0x90, 0xBF, 2, 0)
    else if k = 0xF4 then some (0x80, 0x8F, 2, 4)
    else if 0xF1 ≤ k ∧ k ≤ 0xF3 then some (0x80, 0xBF, 2, k - 0xF0)
    else none := by
  unfold utf8Lead
  simp only [UInt8.le_iff_toNat_le, ← UInt8.toNat_inj, toNat_byte small]
  rfl

theorem lead_two {v : Nat} (low : 0x7f < v) (high : v ≤ 0x7ff) :
    utf8Lead (UInt8.ofNat (v / 64 % 32 + 192)) = some (0x80, 0xBF, 0, v / 64) := by
  rw [utf8Lead_ofNat (by omega), if_pos (by omega), show v / 64 % 32 + 192 - 0xC0 = v / 64 by omega]

/-- The first byte of three bounds the second. -/
theorem lead_three {v : Nat} (low : 0x7ff < v) (high : v ≤ 0xffff)
    (valid : v < 0xD800 ∨ 0xDFFF < v) :
    ∃ least most, utf8Lead (UInt8.ofNat (v / 4096 % 16 + 224)) = some (least, most, 1, v / 4096) ∧
      least ≤ UInt8.ofNat (v / 64 % 64 + 128) ∧ UInt8.ofNat (v / 64 % 64 + 128) ≤ most := by
  rw [utf8Lead_ofNat (by omega), if_neg (by omega)]
  simp only [UInt8.le_iff_toNat_le, toNat_byte (show v / 64 % 64 + 128 < 256 by omega)]
  split_ifs with first surrogate plain
  · exact ⟨0xA0, 0xBF, by rw [show v / 4096 = 0 by omega], show 160 ≤ _ by omega,
      show _ ≤ 191 by omega⟩
  · exact ⟨0x80, 0x9F, by rw [show v / 4096 = 0xD by omega], show 128 ≤ _ by omega,
      show _ ≤ 159 by omega⟩
  · exact ⟨0x80, 0xBF, by rw [show v / 4096 % 16 + 224 - 0xE0 = v / 4096 by omega],
      show 128 ≤ _ by omega, show _ ≤ 191 by omega⟩
  all_goals omega

/-- The first byte of four bounds the second. -/
theorem lead_four {v : Nat} (low : 0xffff < v) (high : v < 0x110000) :
    ∃ least most, utf8Lead (UInt8.ofNat (v / 262144 % 8 + 240)) =
        some (least, most, 2, v / 262144) ∧
      least ≤ UInt8.ofNat (v / 4096 % 64 + 128) ∧ UInt8.ofNat (v / 4096 % 64 + 128) ≤ most := by
  rw [utf8Lead_ofNat (by omega), if_neg (by omega), if_neg (by omega), if_neg (by omega),
    if_neg (by omega)]
  simp only [UInt8.le_iff_toNat_le, toNat_byte (show v / 4096 % 64 + 128 < 256 by omega)]
  split_ifs with first last plain
  · exact ⟨0x90, 0xBF, by rw [show v / 262144 = 0 by omega], show 144 ≤ _ by omega,
      show _ ≤ 191 by omega⟩
  · exact ⟨0x80, 0x8F, by rw [show v / 262144 = 4 by omega], show 128 ≤ _ by omega,
      show _ ≤ 143 by omega⟩
  · exact ⟨0x80, 0xBF, by rw [show v / 262144 % 8 + 240 - 0xF0 = v / 262144 by omega],
      show 128 ≤ _ by omega, show _ ≤ 191 by omega⟩
  · omega

theorem not_ascii {n : Nat} (low : 128 ≤ n) (high : n < 256) : ¬ UInt8.ofNat n < 0x80 := by
  rw [UInt8.lt_iff_toNat_lt, toNat_byte high]
  exact Nat.not_lt.mpr low

theorem decode_char (char : Char) (rest : Bytes) :
    decode (String.utf8EncodeChar char ++ rest) = char :: decode rest := by
  have valid : char.toNat < 0xD800 ∨ 0xDFFF < char.toNat ∧ char.toNat < 0x110000 := char.valid
  have own : Char.ofNat char.toNat = char := Char.ofNat_toNat char
  have named : char.val.toNat = char.toNat := rfl
  by_cases ascii : char.toNat < 128
  · rw [utf8EncodeChar_ascii ascii, List.singleton_append, decode_ascii ascii]
  rw [String.utf8EncodeChar, named]
  generalize char.toNat = v at valid own ascii
  split_ifs with one two three
  · omega
  · rw [List.cons_append, List.cons_append, List.nil_append,
      decode_lead (not_ascii (by omega) (by omega)) (lead_two (by omega) two),
      utf8Rest_last rest (follows v) (show v / 64 * 64 + v % 64 = v by omega), own]
  · obtain ⟨least, most, lead, inside⟩ := lead_three (v := v) (by omega) three (by omega)
    rw [List.cons_append, List.cons_append, List.cons_append, List.nil_append,
      decode_lead (not_ascii (by omega) (by omega)) lead, utf8Rest_more _ inside rfl,
      utf8Rest_last rest (follows v) (show (v / 4096 * 64 + v / 64 % 64) * 64 + v % 64 = v by omega),
      own]
  · obtain ⟨least, most, lead, inside⟩ := lead_four (v := v) (by omega) (by omega)
    rw [List.cons_append, List.cons_append, List.cons_append, List.cons_append, List.nil_append,
      decode_lead (not_ascii (by omega) (by omega)) lead, utf8Rest_more _ inside rfl,
      utf8Rest_more _ (follows (v / 64)) rfl,
      utf8Rest_last rest (follows v) (show ((v / 262144 * 64 + v / 4096 % 64) * 64 + v / 64 % 64) * 64 +
        v % 64 = v by omega), own]

/-- Decoding gives back what was encoded. -/
@[simp] theorem decode_encode (chars : List Char) : decode (encode chars) = chars := by
  induction chars with
  | nil => rfl
  | cons char chars ih => rw [encode_cons, decode_char, ih]

/-! ## Lines as they are read -/

/-- The bytes of some text. -/
def Encoded (bytes : Bytes) : Prop := ∃ chars, encode chars = bytes

theorem Encoded.decode {bytes : Bytes} (own : Encoded bytes) : encode (decode bytes) = bytes := by
  obtain ⟨chars, rfl⟩ := own
  rw [decode_encode]

theorem encoded_bytesOf (text : String) : Encoded (bytesOf text) := ⟨_, (bytesOf_eq text).symm⟩

/-- A text that ends with the byte of an ASCII character ends with that character. -/
theorem encode_eq_concat {chars : List Char} {body : Bytes} {mark : Char} (ascii : mark.toNat < 128)
    (ends : encode chars = body ++ [UInt8.ofNat mark.toNat]) :
    ∃ chars', chars = chars' ++ [mark] ∧ encode chars' = body := by
  rcases List.eq_nil_or_concat chars with rfl | ⟨chars', last, rfl⟩
  · exact absurd ends.symm (by simp)
  · have whole : encode chars' ++ String.utf8EncodeChar last = body ++ [UInt8.ofNat mark.toNat] := by
      rw [← ends, List.concat_eq_append, encode_append, encode_cons, encode_nil, List.append_nil]
    have held : UInt8.ofNat mark.toNat ∈ String.utf8EncodeChar last := by
      have final := congrArg List.getLast? whole
      rw [List.getLast?_concat, List.getLast?_append_of_ne_nil _ String.utf8EncodeChar_ne_nil] at final
      exact List.mem_of_getLast? final
    obtain rfl := mem_utf8EncodeChar ascii held
    rw [utf8EncodeChar_ascii ascii] at whole
    exact ⟨chars', List.concat_eq_append, (List.append_inj' whole rfl).1⟩

/-- A line without the carriage return at its end. -/
def dropReturn (line : List Char) : List Char := (stripLast line '\r').getD line

/-- What a parser reads of a line. -/
def lineChars (line : Bytes) : List Char := dropReturn (decode line)

theorem textLines_closeAll {lines : List (List Char)} (clean : ∀ line ∈ lines, '\n' ∉ line) :
    textLines (closeAll '\n' lines) = lines.map dropReturn := by
  induction lines with
  | nil => rfl
  | cons line lines ih =>
    obtain ⟨first, clean⟩ := List.forall_mem_cons.mp clean
    have ends : Terminated (· == '\n') (line ++ ['\n']) :=
      ⟨line, '\n', rfl, rfl, fun char mem => beq_eq_false_iff_ne.mpr fun same => first (same ▸ mem)⟩
    have strip : stripLast (line ++ ['\n']) '\n' = some line := by
      rw [stripLast, List.getLast?_concat, if_pos rfl, List.dropLast_concat]
    rw [closeAll, List.flatMap_cons, textLines, splitInclusive_terminated_append ends,
      List.map_cons, strip]
    exact congrArg (dropReturn line :: ·) (ih clean)

theorem encode_closeAll (lines : List (List Char)) :
    encode (closeAll '\n' lines) = closeAll 10 (lines.map encode) := by
  induction lines with
  | nil => rfl
  | cons line lines ih =>
    rw [closeAll, List.flatMap_cons, encode_append, encode_append, List.map_cons, closeAll,
      List.flatMap_cons]
    exact congrArg _ ih

/-- A parser reads a text line by line. -/
theorem parse_bytesOf {text : String} (mode : ConflictMarkerMode)
    (short : ∀ line ∈ (bytesOf text).splitOnP isNewline, line.length ≤ maxLineBytes) :
    DiffParser.parseWithConflictMarkers (bytesOf text) mode =
      ((textLines text.toList).foldl (fun parser line => DiffParser.push parser mode line)
        ⟨[], none⟩).finishHunk.rows := by
  have none_long : ((bytesOf text).splitOnP isNewline).any (fun line => maxLineBytes < line.length) =
      false := by
    rw [List.any_eq_false]
    intro line mem
    simpa using short line mem
  rw [DiffParser.parseWithConflictMarkers, none_long, if_neg Bool.false_ne_true, fromUTF8_bytesOf]

theorem parse_closeAll {lines : List Bytes} (mode : ConflictMarkerMode)
    (clean : ∀ line ∈ lines, 10 ∉ line) (encoded : ∀ line ∈ lines, Encoded line)
    (short : ∀ line ∈ lines, line.length ≤ maxLineBytes) :
    DiffParser.parseWithConflictMarkers (closeAll 10 lines) mode =
      ((lines.map lineChars).foldl (fun parser line => DiffParser.push parser mode line)
        ⟨[], none⟩).finishHunk.rows := by
  have same : (lines.map decode).map encode = lines := by
    rw [List.map_map]
    exact (List.map_congr_left fun line mem => (encoded line mem).decode).trans (List.map_id _)
  have plain : ∀ line ∈ lines.map decode, '\n' ∉ line := by
    intro line mem inside
    obtain ⟨own, held, rfl⟩ := List.mem_map.mp mem
    refine clean own held ?_
    rw [← (encoded own held).decode]
    exact List.mem_flatMap.mpr ⟨'\n', inside, List.mem_singleton.mpr rfl⟩
  have text : bytesOf (String.ofList (closeAll '\n' (lines.map decode))) = closeAll 10 lines := by
    rw [bytesOf_eq, String.toList_ofList, encode_closeAll, same]
  rw [← text, parse_bytesOf, String.toList_ofList, textLines_closeAll plain, List.map_map]
  · rfl
  · intro line mem
    rw [text] at mem
    have parts : (closeAll 10 lines).splitOnP isNewline = lines ++ [[]] := splitOn_closeAll clean
    rw [parts] at mem
    rcases List.mem_append.mp mem with mem | mem
    · exact short line mem
    · rw [List.mem_singleton.mp mem]
      exact Nat.zero_le _

/-! ## The text of a row -/

/-- A line without the newline at its end. -/
def lineBody (line : Bytes) : Bytes := (stripSuffix line 10).getD line

theorem rowText_eq (marker : Char) (line : Bytes) : rowText marker (some line) =
    String.ofList (marker :: decode ((stripSuffix (lineBody line) 13).getD (lineBody line))) := by
  refine String.toList_inj.mp ?_
  rw [rowText, String.toList_append, String.toList_singleton, fromUtf8Lossy, String.toList_ofList,
    String.toList_ofList]
  rfl

theorem stripSuffix_concat (body : Bytes) (byte : UInt8) :
    stripSuffix (body ++ [byte]) byte = some body := by
  rw [stripSuffix, List.getLast?_concat, if_pos rfl, List.dropLast_concat]

/-- A carriage return at the end is dropped alike before and after decoding. -/
theorem decode_dropReturn (chars : List Char) :
    decode ((stripSuffix (encode chars) 13).getD (encode chars)) = dropReturn chars := by
  by_cases ends : (encode chars).getLast? = some 13
  · obtain ⟨body, split⟩ := List.getLast?_eq_some_iff.mp ends
    obtain ⟨chars', rfl, rfl⟩ := encode_eq_concat return_ascii split
    rw [split, stripSuffix_concat, Option.getD_some, decode_encode, dropReturn, stripLast,
      List.getLast?_concat, if_pos rfl, List.dropLast_concat]
    rfl
  · have other : chars.getLast? ≠ some '\r' := by
      intro last
      obtain ⟨chars', rfl⟩ := List.getLast?_eq_some_iff.mp last
      refine ends ?_
      rw [encode_append]
      exact List.getLast?_concat
    rw [stripSuffix, if_neg ends, Option.getD_none, decode_encode, dropReturn, stripLast,
      if_neg other]
    rfl

theorem dropReturn_cons {marker : Char} (other : marker ≠ '\r') (chars : List Char) :
    dropReturn (marker :: chars) = marker :: dropReturn chars := by
  cases chars with
  | nil => simp [dropReturn, stripLast, other]
  | cons char chars =>
    unfold dropReturn stripLast
    rw [List.getLast?_cons_cons]
    split_ifs
    · rw [List.dropLast_cons_cons]
      rfl
    · rfl

theorem lineChars_cons {marker : Char} (ascii : marker.toNat < 128) (other : marker ≠ '\r')
    {body : Bytes} (own : Encoded body) : lineChars (UInt8.ofNat marker.toNat :: body) =
      marker :: decode ((stripSuffix body 13).getD body) := by
  obtain ⟨chars, rfl⟩ := own
  rw [lineChars, decode_ascii ascii, decode_encode, dropReturn_cons other, decode_dropReturn]

/-- The row that says a line has no newline. -/
def unendedRows (line : Bytes) : List String :=
  if line.getLast?.any isNewline then [] else ["\\ No newline at end of file"]

/-- What is read of a marked line: the text of its row, and whether it lacks a newline. -/
theorem lineChars_markedLine {marker : Char} (ascii : marker.toNat < 128) (other : marker ≠ '\r')
    {line : Bytes} (own : IsLine line) (encoded : Encoded line) :
    (markedLine (UInt8.ofNat marker.toNat) line).map lineChars =
      (rowText marker (some line) :: unendedRows line).map String.toList := by
  rw [rowText_eq, List.map_cons, String.toList_ofList]
  rcases own.cases with ⟨body, rfl, -, marked⟩ | ⟨-, bare, marked⟩
  · obtain ⟨chars, same⟩ := encoded
    obtain ⟨chars', -, rfl⟩ := encode_eq_concat newline_ascii same
    have ends : (encode chars' ++ [10]).getLast?.any isNewline = true := by
      rw [List.getLast?_concat]
      rfl
    rw [marked, unendedRows, if_pos ends, lineBody, stripSuffix_concat, Option.getD_some,
      List.map_singleton, lineChars_cons ascii other ⟨chars', rfl⟩]
    rfl
  · have whole : lineBody line = line := by
      rw [lineBody, stripSuffix, if_neg]
      · rfl
      · intro last
        rw [last] at bare
        exact absurd bare (by decide)
    rw [marked, unendedRows, bare, whole, List.map_cons, lineChars_cons ascii other encoded]
    have mark : lineChars noNewline = "\\ No newline at end of file".toList := by decide
    simp [mark]

end ProgressiveReviewer.Hunks
