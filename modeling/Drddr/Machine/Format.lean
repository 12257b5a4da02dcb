import Drddr.Machine.Memory
import Mathlib.Data.List.Basic

/-!
# Formatted text

The conversions of `printf` that print a number, and a buffer that is printed into at a position,
whatever its size.
-/

namespace Machine

/-- `%d`. -/
def decimal : Int → List Char
  | .ofNat n => Nat.toDigits 10 n
  | .negSucc n => '-' :: Nat.toDigits 10 (n + 1)

/-- `%016lx`; `%16lx` with a blank for the zero. -/
def hex16 (fill : Char) (w : Word) : List Char := List.leftpad 16 fill (Nat.toDigits 16 w.toNat)

/-- A word has at most sixteen hexadecimal digits, so it takes exactly the width. -/
@[simp] theorem length_hex16 (fill : Char) (w : Word) : (hex16 fill w).length = 16 := by
  have few : (Nat.toDigits 16 w.toNat).length ≤ 16 :=
    (Nat.length_toDigits_le_iff (by decide) (by decide)).mpr w.isLt
  rw [hex16, List.length_leftpad]
  omega

/-! ## Reading the digits back -/

/-- The loop that reads a hexadecimal number, whatever value it gives a character. -/
def readHex (value : Char → Word) (digits : List Char) : Word :=
  digits.foldl (fun word c => word * 16 + value c) 0

/-- A character that `%lx` prints. -/
def IsHexDigit (c : Char) : Prop := ∃ d < 16, c = Nat.digitChar d

/-- A loop over hexadecimal digits gives each of them its value. -/
def ReadsHex (value : Char → Word) : Prop :=
  ∀ d < 16, value (Nat.digitChar d) = BitVec.ofNat 64 d

/-- A round of the loop that reads digits is one of numbers modulo `2 ^ 64`. -/
theorem toNat_round (word digit : Word) :
    (word * 16 + digit).toNat = (word.toNat * 16 + digit.toNat) % 2 ^ 64 := by
  have base : (16 : Word).toNat = 16 := rfl
  rw [BitVec.toNat_add, BitVec.toNat_mul, base]
  omega

/-- One more digit is read behind the others. -/
theorem readHex_concat (value : Char → Word) (digits : List Char) (c : Char) :
    readHex value (digits ++ [c]) = readHex value digits * 16 + value c := by
  rw [readHex, List.foldl_append]
  rfl

/-- The digits of a number are characters that `%lx` prints. -/
theorem isHexDigit_of_mem_toDigits {n : Nat} {c : Char} (digit : c ∈ Nat.toDigits 16 n) :
    IsHexDigit c := by
  induction n using Nat.strongRecOn with
  | ind n ih =>
    rw [Nat.toDigits_eq_if (by decide)] at digit
    split at digit
    · rename_i small
      exact ⟨n, small, List.mem_singleton.mp digit⟩
    · rename_i large
      rcases List.mem_append.mp digit with higher | last
      · exact ih (n / 16) (by omega) higher
      · exact ⟨n % 16, by omega, List.mem_singleton.mp last⟩

/-- What `%016lx` prints are digits. -/
theorem isHexDigit_of_mem_hex16 {w : Word} {c : Char} (digit : c ∈ hex16 '0' w) :
    IsHexDigit c := by
  rcases List.mem_append.mp digit with zero | digit
  · exact ⟨0, by decide, List.eq_of_mem_replicate zero⟩
  · exact isHexDigit_of_mem_toDigits digit

section

variable {value : Char → Word} (reads : ReadsHex value)

include reads

/-- The digits of a number are read back. -/
theorem readHex_toDigits (n : Nat) : readHex value (Nat.toDigits 16 n) = BitVec.ofNat 64 n := by
  induction n using Nat.strongRecOn with
  | ind n ih =>
    rw [Nat.toDigits_eq_if (by decide)]
    split
    · rename_i small
      change 0 * 16 + value (Nat.digitChar n) = _
      rw [reads n small]
      apply BitVec.eq_of_toNat_eq
      simp
    · rename_i large
      rw [readHex_concat, ih (n / 16) (by omega), reads (n % 16) (by omega)]
      apply BitVec.eq_of_toNat_eq
      rw [toNat_round, BitVec.toNat_ofNat, BitVec.toNat_ofNat, BitVec.toNat_ofNat]
      omega

/-- The zeros before a number add nothing. -/
theorem readHex_zeros (k : Nat) (digits : List Char) :
    readHex value (List.replicate k '0' ++ digits) = readHex value digits := by
  induction k with
  | zero => rfl
  | succ k ih =>
    have zero : (0 : Word) * 16 + value '0' = 0 := by
      have := reads 0 (by decide)
      change value '0' = _ at this
      rw [this]
      decide
    rw [← ih, readHex, List.replicate_succ, List.cons_append, List.foldl_cons, zero]
    rfl

/-- What `%016lx` prints is read back. -/
@[simp] theorem readHex_hex16 (w : Word) : readHex value (hex16 '0' w) = w := by
  rw [hex16, List.leftpad, readHex_zeros reads, readHex_toDigits reads, BitVec.ofNat_toNat,
    BitVec.setWidth_eq]

/-- One more digit is read without wrapping as long as the number fits a word. -/
theorem toNat_readHex_concat {digits : List Char} {d : Nat} (digit : d < 16)
    (fits : (readHex value digits).toNat * 16 + d < 2 ^ 64) :
    (readHex value (digits ++ [Nat.digitChar d])).toNat =
      (readHex value digits).toNat * 16 + d := by
  rw [readHex_concat, toNat_round, reads d digit, BitVec.toNat_ofNat]
  omega

/-- Sixteen digits are read without wrapping. -/
theorem readHex_lt {digits : List Char} (hex : ∀ c ∈ digits, IsHexDigit c)
    (few : digits.length ≤ 16) : (readHex value digits).toNat < 16 ^ digits.length := by
  induction digits using List.reverseRecOn with
  | nil => exact Nat.one_pos
  | append_singleton digits c ih =>
    obtain ⟨d, digit, rfl⟩ := hex c (by simp)
    rw [List.length_append, List.length_singleton] at few ⊢
    have before := ih (fun c earlier => hex c (by simp [earlier])) (by omega)
    have wide : 16 ^ (digits.length + 1) ≤ 16 ^ 16 := Nat.pow_le_pow_right (by decide) few
    rw [Nat.pow_succ] at wide ⊢
    rw [toNat_readHex_concat reads digit (by omega)]
    omega

/-- Different digits are read as different numbers. -/
theorem readHex_injective {digits digits' : List Char} (same : digits.length = digits'.length)
    (hex : ∀ c ∈ digits, IsHexDigit c) (hex' : ∀ c ∈ digits', IsHexDigit c)
    (few : digits.length ≤ 16) (read : readHex value digits = readHex value digits') :
    digits = digits' := by
  induction digits using List.reverseRecOn generalizing digits' with
  | nil => exact (List.length_eq_zero_iff.mp same.symm).symm
  | append_singleton digits c ih =>
    cases digits' using List.reverseRecOn with
    | nil => simp at same
    | append_singleton digits' c' =>
      obtain ⟨d, digit, rfl⟩ := hex c (by simp)
      obtain ⟨d', digit', rfl⟩ := hex' c' (by simp)
      simp only [List.length_append, List.length_singleton, Nat.add_right_cancel_iff] at same few
      have hexInit : ∀ c ∈ digits, IsHexDigit c := fun c earlier => hex c (by simp [earlier])
      have hexInit' : ∀ c ∈ digits', IsHexDigit c := fun c earlier => hex' c (by simp [earlier])
      have small := readHex_lt reads hexInit (by omega)
      have small' := readHex_lt reads hexInit' (by omega)
      have wide : 16 ^ (digits.length + 1) ≤ 16 ^ 16 := Nat.pow_le_pow_right (by decide) few
      rw [← same] at small'
      rw [Nat.pow_succ] at wide
      have read := congrArg BitVec.toNat read
      rw [toNat_readHex_concat reads digit (by omega),
        toNat_readHex_concat reads digit' (by omega)] at read
      have init := ih same hexInit hexInit' (by omega) (BitVec.eq_of_toNat_eq (by omega))
      rw [init, show d = d' by omega]

/-- Sixteen digits are what `%016lx` prints of the number they are read as. -/
theorem hex16_readHex {digits : List Char} (hex : ∀ c ∈ digits, IsHexDigit c)
    (wide : digits.length = 16) : hex16 '0' (readHex value digits) = digits :=
  readHex_injective reads (by rw [length_hex16, wide])
    (fun _ digit => isHexDigit_of_mem_hex16 digit) hex (by rw [length_hex16])
    (readHex_hex16 reads _)

end

/-! ## Widths -/

/-- `%5d` takes a sixth place for a number of six digits. -/
theorem length_leftpad_decimal {i : Nat} (six : i < 1000000) :
    (List.leftpad 5 ' ' (decimal i)).length = if i < 100000 then 5 else 6 := by
  have most : (Nat.toDigits 10 i).length ≤ 6 :=
    (Nat.length_toDigits_le_iff (by decide) (by decide)).mpr six
  have five : (Nat.toDigits 10 i).length ≤ 5 ↔ i < 100000 :=
    Nat.length_toDigits_le_iff (by decide) (by decide)
  rw [List.length_leftpad]
  change max 5 (Nat.toDigits 10 i).length = _
  split
  · omega
  · omega

/-! ## Printing into a buffer -/

/-- The character that ends a string. -/
def nul : Char := Char.ofNat 0

/-- What has been written so far, and the position. -/
structure PrintBuffer where
  /-- The character written at an index, if one was. -/
  chars : Nat → Option Char
  pos : Nat

namespace PrintBuffer

/-- The buffer when nothing is written yet. -/
def empty : PrintBuffer := ⟨fun _ => none, 0⟩

/-- `pos += sprintf(buffer + pos, ...)`: the characters and the one that ends them. -/
def print (s : PrintBuffer) (text : List Char) : PrintBuffer where
  chars k := if s.pos ≤ k ∧ k ≤ s.pos + text.length then (text ++ [nul])[k - s.pos]? else s.chars k
  pos := s.pos + text.length

/-- A text stands at the start of the buffer with its end, and nothing has been written after
it. -/
structure Holds (s : PrintBuffer) (text : List Char) : Prop where
  pos : s.pos = text.length
  chars : ∀ k, s.chars k = (text ++ [nul])[k]?

/-- The first text that is printed is what the buffer holds. -/
theorem holds_print_empty (text : List Char) : (empty.print text).Holds text := by
  refine ⟨Nat.zero_add _, fun k => ?_⟩
  simp only [print, empty, Nat.zero_le, Nat.zero_add, Nat.sub_zero, true_and]
  split
  · rfl
  · rename_i after
    rw [List.getElem?_eq_none]
    simp only [List.length_append, List.length_singleton]
    omega

/-- A text that is printed later is appended; it takes the place of the end. -/
theorem Holds.print {s : PrintBuffer} {text : List Char} (held : s.Holds text)
    (more : List Char) : (s.print more).Holds (text ++ more) := by
  refine ⟨by rw [PrintBuffer.print, held.pos, List.length_append], fun k => ?_⟩
  simp only [PrintBuffer.print, held.pos]
  by_cases before : k < text.length
  · rw [if_neg (by omega), held.chars k, List.append_assoc, List.getElem?_append_left before,
      List.getElem?_append_left before]
  · have later : (text ++ (more ++ [nul]))[k]? = (more ++ [nul])[k - text.length]? :=
      List.getElem?_append_right (by omega)
    rw [List.append_assoc, later]
    split
    · rfl
    · rename_i after
      have past : (text ++ [nul]).length ≤ k ∧ (more ++ [nul]).length ≤ k - text.length := by
        simp only [List.length_append, List.length_singleton]
        omega
      rw [held.chars k, List.getElem?_eq_none past.1, List.getElem?_eq_none past.2]

/-- A loop of prints appends what its rounds print. -/
theorem Holds.foldl {α : Type*} {s : PrintBuffer} {text : List Char} (held : s.Holds text)
    {body : PrintBuffer → α → PrintBuffer} {line : α → List Char}
    (round : ∀ s text a, Holds s text → Holds (body s a) (text ++ line a)) (items : List α) :
    (items.foldl body s).Holds (text ++ items.flatMap line) := by
  induction items generalizing s text with
  | nil => simpa using held
  | cons a items ih =>
    rw [List.foldl_cons, List.flatMap_cons, ← List.append_assoc]
    exact ih (round s text a held)

end PrintBuffer

end Machine
