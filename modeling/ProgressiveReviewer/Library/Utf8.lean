import Mathlib.Tactic.ByContra
import ProgressiveReviewer.Library.LineText

/-! The bytes of a text in UTF-8. Only a newline is written with the byte of a newline. -/

namespace ProgressiveReviewer.Library

/-- The UTF-8 bytes of some characters. -/
def encode (chars : List Char) : List UInt8 := chars.flatMap String.utf8EncodeChar

@[simp] theorem encode_nil : encode [] = [] := rfl

@[simp] theorem encode_cons (char : Char) (chars : List Char) :
    encode (char :: chars) = String.utf8EncodeChar char ++ encode chars := rfl

@[simp] theorem encode_append (chars chars' : List Char) :
    encode (chars ++ chars') = encode chars ++ encode chars' := List.flatMap_append

theorem utf8_eq_encode (chars : List Char) : (String.ofList chars).toUTF8.data.toList = encode chars := by
  rw [String.toUTF8_eq_toByteArray, String.toByteArray_ofList, List.utf8Encode]
  simp [encode]

/-- A character of ASCII is its byte. -/
theorem utf8EncodeChar_ascii {char : Char} (ascii : char.toNat < 128) :
    String.utf8EncodeChar char = [UInt8.ofNat char.toNat] := by
  have le : char.val.toNat ≤ 0x7f := by
    have : char.val.toNat = char.toNat := rfl
    omega
  simp only [String.utf8EncodeChar, if_pos le]
  rfl

/-- Every byte of another character has its highest bit. -/
theorem utf8EncodeChar_high {char : Char} (other : 128 ≤ char.toNat) {byte : UInt8}
    (mem : byte ∈ String.utf8EncodeChar char) : 128 ≤ byte.toNat := by
  have high : ¬ char.val.toNat ≤ 0x7f := by
    have : char.val.toNat = char.toNat := rfl
    omega
  have bound : ∀ n, n < 256 → (UInt8.ofNat n).toNat = n := fun n small => by
    simp [Nat.mod_eq_of_lt small]
  simp only [String.utf8EncodeChar, if_neg high] at mem
  split_ifs at mem <;> simp only [List.mem_cons, List.not_mem_nil, or_false] at mem <;>
    rcases mem with rfl | rfl | rfl | rfl <;> rw [bound _ (by omega)] <;> omega

/-- A byte of ASCII stands for its character only. -/
theorem mem_utf8EncodeChar {char mark : Char} (ascii : mark.toNat < 128)
    (mem : UInt8.ofNat mark.toNat ∈ String.utf8EncodeChar char) : char = mark := by
  have value : (UInt8.ofNat mark.toNat).toNat = mark.toNat := by
    simp [Nat.mod_eq_of_lt (show mark.toNat < 256 by omega)]
  by_cases other : 128 ≤ char.toNat
  · have := utf8EncodeChar_high other mem
    omega
  · rw [utf8EncodeChar_ascii (by omega), List.mem_singleton] at mem
    have same := congrArg UInt8.toNat mem
    rw [value] at same
    have small : (UInt8.ofNat char.toNat).toNat = char.toNat := by
      simp [Nat.mod_eq_of_lt (show char.toNat < 256 by omega)]
    rw [← Char.ofNat_toNat char, ← Char.ofNat_toNat mark, same, small]

theorem newline_ascii : '\n'.toNat < 128 := by decide

theorem return_ascii : '\r'.toNat < 128 := by decide

theorem mem_encode {chars : List Char} {mark : Char} (ascii : mark.toNat < 128)
    (mem : UInt8.ofNat mark.toNat ∈ encode chars) : mark ∈ chars := by
  obtain ⟨char, inside, mem⟩ := List.mem_flatMap.mp mem
  exact mem_utf8EncodeChar ascii mem ▸ inside

/-! ## Lines -/

variable {α : Type*} {nl : α → Bool}

/-- What has no terminator belongs to the line that goes on after it. -/
theorem splitInclusive_append {front rest : List α} (clean : ∀ a ∈ front, nl a = false)
    (some : front ≠ []) : splitInclusive nl (front ++ rest) =
      match splitInclusive nl rest with
      | [] => [front]
      | line :: lines => (front ++ line) :: lines := by
  induction front with
  | nil => exact absurd rfl some
  | cons a front ih =>
    obtain ⟨own, clean⟩ := List.forall_mem_cons.mp clean
    rw [List.cons_append, splitInclusive, own, if_neg Bool.false_ne_true]
    cases front with
    | nil =>
      rw [List.nil_append]
      cases splitInclusive nl rest <;> rfl
    | cons b front =>
      rw [ih clean (List.cons_ne_nil b front)]
      cases splitInclusive nl rest <;> rfl

/-- A line is a part between terminators, with or without its terminator. -/
theorem LineList.parts {lines : List (List α)} (list : LineList nl lines) :
    ∀ line ∈ lines, ∃ body ∈ lines.flatten.splitOnP nl, (∀ a ∈ body, nl a = false) ∧
      (line = body ∨ ∃ a, nl a = true ∧ line = body ++ [a]) := by
  induction lines with
  | nil => exact fun _ mem => (List.not_mem_nil mem).elim
  | cons first lines ih =>
    obtain ⟨rest, -, ends⟩ := lineList_cons.mp list
    rcases list.head with ⟨body, last, rfl, isLast, clean⟩ | ⟨some_, clean⟩
    · rw [List.flatten_cons, List.append_assoc, List.singleton_append,
        List.splitOnP_append_cons_of_forall_mem clean last isLast, List.forall_mem_cons]
      refine ⟨⟨body, List.mem_cons_self, clean, .inr ⟨last, isLast, rfl⟩⟩, fun line mem => ?_⟩
      obtain ⟨body', held, own⟩ := ih rest line mem
      exact ⟨body', List.mem_cons_of_mem _ held, own⟩
    · have none_ : lines = [] := by
        by_contra more
        exact (ends more).not_unterminated ⟨some_, clean⟩
      subst none_
      intro line mem
      rw [List.mem_singleton.mp mem, List.flatten_singleton, List.splitOnP_eq_singleton clean]
      exact ⟨first, List.mem_singleton_self first, clean, .inl rfl⟩

/-- The lines of a text in UTF-8 are those of its characters. -/
theorem splitInclusive_encode (chars : List Char) :
    splitInclusive (· == 10) (encode chars) = (splitInclusive (· == '\n') chars).map encode := by
  induction chars with
  | nil => rfl
  | cons char chars ih =>
    by_cases newline : char = '\n'
    · subst newline
      have byte : encode ('\n' :: chars) = 10 :: encode chars := rfl
      rw [byte, splitInclusive, splitInclusive, if_pos (by decide), if_pos (by decide), ih]
      rfl
    · have clean : ∀ byte ∈ String.utf8EncodeChar char, (byte == 10) = false := by
        intro byte mem
        refine beq_eq_false_iff_ne.mpr ?_
        rintro rfl
        exact newline (mem_utf8EncodeChar (by decide : '\n'.toNat < 128) mem)
      rw [encode_cons, splitInclusive_append clean String.utf8EncodeChar_ne_nil, ih, splitInclusive,
        if_neg (by simpa using newline)]
      cases splitInclusive (· == '\n') chars with
      | nil => simp
      | cons line lines => simp

end ProgressiveReviewer.Library
