import Drddr.Machine.Text

/-!
# Printed text read back

What a text says that is printed line by line: the lines, and the numbers in them.
-/

namespace Machine

/-! ## Lines -/

/-- Texts, a newline after each of them. -/
def unlines (texts : List (List Char)) : List Char := texts.flatMap (· ++ ['\n'])

/-- The first line of a text and the rest are determined by the text. -/
theorem append_newline_inj {text text' rest rest' : List Char} (whole : '\n' ∉ text)
    (whole' : '\n' ∉ text') (same : text ++ '\n' :: rest = text' ++ '\n' :: rest') :
    text = text' ∧ rest = rest' := by
  induction text generalizing text' with
  | nil =>
    cases text' with
    | nil => exact ⟨rfl, List.tail_eq_of_cons_eq same⟩
    | cons c text' =>
      have first : '\n' = c := List.head_eq_of_cons_eq same
      rw [first] at whole'
      exact absurd List.mem_cons_self whole'
  | cons c text ih =>
    cases text' with
    | nil =>
      have first : c = '\n' := List.head_eq_of_cons_eq same
      rw [first] at whole
      exact absurd List.mem_cons_self whole
    | cons d text' =>
      obtain ⟨first, later⟩ := List.cons_eq_cons.mp same
      have rest := ih (fun inside => whole (List.mem_cons_of_mem c inside))
        (fun inside => whole' (List.mem_cons_of_mem d inside)) later
      rw [first, rest.1]
      exact ⟨rfl, rest.2⟩

/-- Different lines are printed as different texts. -/
theorem unlines_injective {texts texts' : List (List Char)} (whole : ∀ text ∈ texts, '\n' ∉ text)
    (whole' : ∀ text ∈ texts', '\n' ∉ text) (same : unlines texts = unlines texts') :
    texts = texts' := by
  induction texts generalizing texts' with
  | nil =>
    cases texts' with
    | nil => rfl
    | cons text texts' => simp [unlines] at same
  | cons text texts ih =>
    cases texts' with
    | nil => simp [unlines] at same
    | cons text' texts' =>
      have parts : text ++ '\n' :: unlines texts = text' ++ '\n' :: unlines texts' := by
        simpa [unlines] using same
      obtain ⟨first, rest⟩ := append_newline_inj (whole text List.mem_cons_self)
        (whole' text' List.mem_cons_self) parts
      rw [first, ih (fun t member => whole t (List.mem_cons_of_mem text member))
        (fun t member => whole' t (List.mem_cons_of_mem text' member)) rest]

/-! ## Numbers -/

/-- The digits of a number in any base up to sixteen are digits of `%lx`. -/
theorem isHexDigit_of_mem_digits {b n : Nat} (base : 1 < b) (most : b ≤ 16) {c : Char}
    (digit : c ∈ Nat.toDigits b n) : IsHexDigit c := by
  induction n using Nat.strongRecOn with
  | ind n ih =>
    rw [Nat.toDigits_eq_if base] at digit
    split at digit
    · rename_i small
      exact ⟨n, by omega, List.mem_singleton.mp digit⟩
    · rename_i large
      rcases List.mem_append.mp digit with higher | last
      · exact ih (n / b) (Nat.div_lt_self (by omega) base) higher
      · have below : n % b < b := Nat.mod_lt n (by omega)
        exact ⟨n % b, by omega, List.mem_singleton.mp last⟩

/-- No digit is one of the other characters of a report. -/
theorem not_isHexDigit {c : Char} (other : c = '\n' ∨ c = ' ' ∨ c = '-') : ¬IsHexDigit c := by
  rintro ⟨d, small, rfl⟩
  have each : ∀ d < 16, Nat.digitChar d ≠ '\n' ∧ Nat.digitChar d ≠ ' ' ∧
      Nat.digitChar d ≠ '-' := by
    decide
  obtain ⟨newline, blank, minus⟩ := each d small
  rcases other with same | same | same
  · exact newline same
  · exact blank same
  · exact minus same

/-- A number has a first digit. -/
theorem toDigits_head {b : Nat} (base : 1 < b) (most : b ≤ 16) (n : Nat) :
    ∃ c rest, Nat.toDigits b n = c :: rest ∧ IsHexDigit c := by
  cases digits : Nat.toDigits b n with
  | nil => exact absurd digits Nat.toDigits_ne_nil
  | cons c rest =>
    have member : c ∈ Nat.toDigits b n := by
      rw [digits]
      exact List.mem_cons_self
    exact ⟨c, rest, rfl, isHexDigit_of_mem_digits base most member⟩

/-- The value of a digit. -/
def hexValue (c : Char) : Word :=
  BitVec.ofNat 64 (if c.toNat < 58 then c.toNat - 48 else c.toNat - 87)

/-- `hexValue` gives the digits of `%lx` their values. -/
theorem hexValue_reads : ReadsHex hexValue := by
  unfold ReadsHex
  decide

/-- `%lx` prints different words differently. -/
theorem toDigits_word_injective {w w' : Word}
    (same : Nat.toDigits 16 w.toNat = Nat.toDigits 16 w'.toNat) : w = w' := by
  have read := congrArg (readHex hexValue) same
  rw [readHex_toDigits hexValue_reads, readHex_toDigits hexValue_reads] at read
  simpa using read

/-- The characters before a number that is padded. -/
theorem dropWhile_leftpad {fill : Char} (other : ¬IsHexDigit fill) (width n : Nat) :
    (List.leftpad width fill (Nat.toDigits 16 n)).dropWhile (· = fill) = Nat.toDigits 16 n := by
  obtain ⟨c, rest, digits, digit⟩ := toDigits_head (b := 16) (by decide) (by decide) n
  have first : ¬c = fill := fun same => other (same ▸ digit)
  rw [List.leftpad, digits]
  induction width - (c :: rest).length with
  | zero => simp [first]
  | succ k ih => simpa [List.replicate_succ, List.dropWhile_cons] using ih

/-- `%16lx` and `%016lx` print different words differently. -/
theorem hex16_injective {fill : Char} (blank : fill = '0' ∨ fill = ' ') {w w' : Word}
    (same : hex16 fill w = hex16 fill w') : w = w' := by
  rcases blank with rfl | rfl
  · have read := congrArg (readHex hexValue) same
    simpa [hexValue_reads] using read
  · have other : ¬IsHexDigit ' ' := not_isHexDigit (.inr (.inl rfl))
    have digits := congrArg (List.dropWhile (· = ' ')) same
    rw [hex16, hex16, dropWhile_leftpad other, dropWhile_leftpad other] at digits
    exact toDigits_word_injective digits

/-- `%d` prints different numbers differently. -/
theorem decimal_injective {i j : Int} (same : decimal i = decimal j) : i = j := by
  have minus (n m : Nat) : Nat.toDigits 10 n ≠ '-' :: Nat.toDigits 10 m := by
    intro equal
    obtain ⟨c, rest, digits, digit⟩ := toDigits_head (b := 10) (by decide) (by decide) n
    rw [digits] at equal
    exact not_isHexDigit (.inr (.inr (List.head_eq_of_cons_eq equal))) digit
  have natural {n m : Nat} (digits : Nat.toDigits 10 n = Nat.toDigits 10 m) : n = m := by
    have read := congrArg (Nat.ofDigitChars 10 · 0) digits
    simpa using read
  cases i with
  | ofNat n =>
    cases j with
    | ofNat m => exact congrArg Int.ofNat (natural same)
    | negSucc m => exact absurd same (minus n (m + 1))
  | negSucc n =>
    cases j with
    | ofNat m => exact absurd same.symm (minus m (n + 1))
    | negSucc m =>
      exact congrArg Int.negSucc (Nat.succ.inj (natural (List.tail_eq_of_cons_eq same)))

/-! ## Characters of a line -/

/-- A text without a control character. -/
def Printable (text : List Char) : Prop := ∀ c ∈ text, isControl c = false

instance (text : List Char) : Decidable (Printable text) :=
  decidable_of_iff (text.all (!isControl ·) = true) (by simp [Printable])

/-- A printable text has no end of a line in it. -/
theorem Printable.newline {text : List Char} (printable : Printable text) : '\n' ∉ text :=
  fun inside => absurd (printable '\n' inside) (by decide)

/-- A printable text has no end of a string in it. -/
theorem Printable.nul {text : List Char} (printable : Printable text) : Machine.nul ∉ text :=
  fun inside => absurd (printable Machine.nul inside) (by decide)

/-- Two texts together are printable just when both are. -/
theorem printable_append {text text' : List Char} :
    Printable (text ++ text') ↔ Printable text ∧ Printable text' := List.forall_mem_append

/-- A digit is no control character. -/
theorem isControl_of_isHexDigit {c : Char} (digit : IsHexDigit c) : isControl c = false := by
  obtain ⟨d, small, rfl⟩ := digit
  have each : ∀ d < 16, isControl (Nat.digitChar d) = false := by decide
  exact each d small

/-- A word that is printed is printable. -/
theorem printable_hex16 {fill : Char} (blank : isControl fill = false) (w : Word) :
    Printable (hex16 fill w) := by
  intro c inside
  rcases List.mem_append.mp inside with before | digit
  · rw [List.eq_of_mem_replicate before]
    exact blank
  · exact isControl_of_isHexDigit (isHexDigit_of_mem_toDigits digit)

/-- A number that is printed is printable. -/
theorem printable_decimal (i : Int) : Printable (decimal i) := by
  have natural (n : Nat) : Printable (Nat.toDigits 10 n) := fun c inside =>
    isControl_of_isHexDigit (isHexDigit_of_mem_digits (by decide) (by decide) inside)
  cases i with
  | ofNat n => exact natural n
  | negSucc n => exact List.forall_mem_cons.mpr ⟨by decide, natural (n + 1)⟩

/-- A padded text is printable if the text is. -/
theorem printable_leftpad {fill : Char} (blank : isControl fill = false) (width : Nat)
    {text : List Char} (printable : Printable text) : Printable (List.leftpad width fill text) := by
  refine printable_append.mpr ⟨fun c inside => ?_, printable⟩
  rw [List.eq_of_mem_replicate inside]
  exact blank

end Machine
