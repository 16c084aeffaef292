import Mathlib.Tactic.IntervalCases

/-! Bytes as text in the standard Base64 alphabet, in groups of three bytes, the last
group padded. Decoding takes exactly the texts that encoding writes. -/

namespace ProgressiveReviewer.Library.Base64

/-- The letter of six bits. -/
def letter (n : Nat) : Char :=
  if n < 26 then Char.ofNat (65 + n)
  else if n < 52 then Char.ofNat (71 + n)
  else if n < 62 then Char.ofNat (n - 4)
  else if n = 62 then '+' else '/'

def value (char : Char) : Option Nat :=
  if 'A' ≤ char ∧ char ≤ 'Z' then some (char.toNat - 65)
  else if 'a' ≤ char ∧ char ≤ 'z' then some (char.toNat - 71)
  else if '0' ≤ char ∧ char ≤ '9' then some (char.toNat + 4)
  else if char = '+' then some 62
  else if char = '/' then some 63 else none

theorem value_letter {n : Nat} (small : n < 64) : value (letter n) = some n := by
  interval_cases n <;> rfl

theorem letter_ne_pad {n : Nat} (small : n < 64) : letter n ≠ '=' := by
  interval_cases n <;> decide

/-- The four letters of 24 bits. -/
def letters (n : Nat) : Char × Char × Char × Char :=
  (letter (n / 262144), letter (n / 4096 % 64), letter (n / 64 % 64), letter (n % 64))

def encodeChars : List UInt8 → List Char
  | [] => []
  | [a] =>
    let (x, y, _, _) := letters (a.toNat * 65536)
    [x, y, '=', '=']
  | [a, b] =>
    let (x, y, z, _) := letters (a.toNat * 65536 + b.toNat * 256)
    [x, y, z, '=']
  | a :: b :: c :: rest =>
    let (x, y, z, w) := letters (a.toNat * 65536 + b.toNat * 256 + c.toNat)
    x :: y :: z :: w :: encodeChars rest

def encode (bytes : List UInt8) : String := String.ofList (encodeChars bytes)

/-- A whole group. -/
def decodeGroup (a b c d : Char) : Option (List UInt8) := do
  let n := (← value a) * 262144 + (← value b) * 4096 + (← value c) * 64 + (← value d)
  return [UInt8.ofNat (n / 65536), UInt8.ofNat (n / 256 % 256), UInt8.ofNat (n % 256)]

/-- A last group, whose unused bits are zero. -/
def decodePadded (a b c : Char) : Option (List UInt8) :=
  if c = '=' then do
    let n := (← value a) * 64 + (← value b)
    if n % 16 = 0 then return [UInt8.ofNat (n / 16)] else none
  else do
    let n := (← value a) * 4096 + (← value b) * 64 + (← value c)
    if n % 4 = 0 then return [UInt8.ofNat (n / 1024), UInt8.ofNat (n / 4 % 256)] else none

def decodeChars : List Char → Option (List UInt8)
  | [] => some []
  | a :: b :: c :: d :: rest =>
    if d = '=' then if rest = [] then decodePadded a b c else none
    else do return (← decodeGroup a b c d) ++ (← decodeChars rest)
  | _ => none

def decode (text : String) : Option (List UInt8) := decodeChars text.toList

theorem decodeGroup_letters {n : Nat} (small : n < 16777216) :
    decodeGroup (letters n).1 (letters n).2.1 (letters n).2.2.1 (letters n).2.2.2 =
      some [UInt8.ofNat (n / 65536), UInt8.ofNat (n / 256 % 256), UInt8.ofNat (n % 256)] := by
  have whole : n / 262144 * 262144 + n / 4096 % 64 * 4096 + n / 64 % 64 * 64 + n % 64 = n := by
    omega
  simp only [decodeGroup, letters]
  rw [value_letter (by omega), value_letter (by omega), value_letter (by omega),
    value_letter (by omega)]
  simp only [Option.bind_eq_bind, Option.bind_some, whole]
  rfl

theorem decodeChars_encodeChars (bytes : List UInt8) :
    decodeChars (encodeChars bytes) = some bytes := by
  induction bytes using encodeChars.induct with
  | case1 => rfl
  | case2 a =>
    have small := a.toNat_lt
    have high : a.toNat * 65536 / 262144 * 64 + a.toNat * 65536 / 4096 % 64 = a.toNat * 16 := by
      omega
    simp only [encodeChars, letters, decodeChars, if_true, decodePadded]
    rw [value_letter (by omega), value_letter (by omega)]
    simp only [Option.bind_eq_bind, Option.bind_some, high, Nat.mul_mod_left, if_true,
      Nat.mul_div_cancel _ (by decide : 0 < 16), UInt8.ofNat_toNat]
    rfl
  | case3 a b =>
    have first := a.toNat_lt
    have second := b.toNat_lt
    have high : (a.toNat * 65536 + b.toNat * 256) / 262144 * 4096 +
        (a.toNat * 65536 + b.toNat * 256) / 4096 % 64 * 64 +
        (a.toNat * 65536 + b.toNat * 256) / 64 % 64 = (a.toNat * 256 + b.toNat) * 4 := by omega
    have whole : (a.toNat * 256 + b.toNat) * 4 / 1024 = a.toNat := by omega
    have rest : (a.toNat * 256 + b.toNat) * 4 / 4 % 256 = b.toNat := by omega
    simp only [encodeChars, letters, decodeChars, if_true, decodePadded,
      if_neg (letter_ne_pad (Nat.mod_lt _ (by decide : 0 < 64)))]
    rw [value_letter (by omega), value_letter (by omega), value_letter (by omega)]
    simp only [Option.bind_eq_bind, Option.bind_some, high, Nat.mul_mod_left, if_true, whole,
      rest, UInt8.ofNat_toNat]
    rfl
  | case4 a b c rest _ _ _ _ _ ih =>
    have first := a.toNat_lt
    have second := b.toNat_lt
    have third := c.toNat_lt
    have one : (a.toNat * 65536 + b.toNat * 256 + c.toNat) / 65536 = a.toNat := by omega
    have two : (a.toNat * 65536 + b.toNat * 256 + c.toNat) / 256 % 256 = b.toNat := by omega
    have three : (a.toNat * 65536 + b.toNat * 256 + c.toNat) % 256 = c.toNat := by omega
    have group := decodeGroup_letters
      (n := a.toNat * 65536 + b.toNat * 256 + c.toNat) (by omega)
    rw [one, two, three] at group
    simp only [UInt8.ofNat_toNat] at group
    have unpadded : (letters (a.toNat * 65536 + b.toNat * 256 + c.toNat)).2.2.2 ≠ '=' :=
      letter_ne_pad (Nat.mod_lt _ (by decide))
    simp only [encodeChars, decodeChars, if_neg unpadded, group, ih]
    rfl

theorem decode_encode (bytes : List UInt8) : decode (encode bytes) = some bytes := by
  rw [decode, encode, String.toList_ofList, decodeChars_encodeChars]

end ProgressiveReviewer.Library.Base64
