import Drddr.Machine.Text
import Mathlib.Data.List.GetD

/-!
# The analyzer

`simple` reads a listing line by line and selects: with `-O` the functions whose name the regular
expression matches, as one regular expression; otherwise the memory accesses inside these
functions, with their addresses.
-/

namespace Drddr

open Machine

namespace Analyzer

/-- `BUF_LEN`. -/
def BUF_LEN : Nat := 33554432

/-- `option.work`. -/
inductive Work where
  | INSTR
  | FUNC
  deriving DecidableEq, Repr

/-- The characters of an address in a listing. -/
def isAddressChar (c : Char) : Bool := ('0' ≤ c && c ≤ '9') || ('a' ≤ c && c ≤ 'f')

/-- `isFunction`, with `state.func.name` when it returns `true`. -/
def isFunction (buf : List Char) : Option (List Char) :=
  if !(List.range 16).all fun i => isAddressChar (buf.getD i nul) then none
  else if buf.getD 16 nul ≠ ' ' then none
  else if buf.getD 17 nul ≠ '<' then none
  else (strchr (buf.drop 18) '>').map fun p => (buf.drop 18).take p

/-- What a character adds to `state.instr.address`. -/
def addressDigit (c : Char) : Word :=
  if c ≤ '9' then BitVec.ofNat 64 (c.toNat - '0'.toNat)
  else BitVec.ofNat 64 (c.toNat - 'a'.toNat + 10)

/-- The loop of `isInstruction` on the first `n` characters: it returns at the first one that is
no digit. -/
def instrAddress (buf : List Char) (n : Nat) : Option Word :=
  (List.range n).foldlM (fun address i =>
    let c := buf.getD i nul
    if isAddressChar c then some (address * 16 + addressDigit c) else none) 0

/-- `isInstruction`, with `state.instr` when it returns `true`. -/
def isInstruction (buf : List Char) : Option (Word × List Char) :=
  (instrAddress buf 16).map fun address =>
    (address, if buf.length > 40 then buf.drop 40 else [])

/-- `DangerousFunction`. -/
def DangerousFunction : List String :=
  ["copy_from_user", "copy_to_user", "might_fault", "sched", "sys_select"]

/-- `FrequentFunction`. -/
def FrequentFunction : List String := ["get_page"]

/-- `MemoryAccess`. -/
def MemoryAccess : List String :=
  ["mov", "add", "adc", "sub", "sbb", "mul", "div", "inc", "dec", "and", "or", "xor", "not",
    "neg", "sh", "ro", "cmp", "test"]

/-- A name that is never selected. -/
def isFiltered (name : List Char) : Bool :=
  DangerousFunction.any (fun part => (strstr name part.toList).isSome) ||
    FrequentFunction.any (fun whole => name = whole.toList)

/-- `relevant` after a header; `matched` is `!regexec (&reg, ...)`. -/
def isRelevant (matched : List Char → Bool) (name : List Char) : Bool :=
  matched name && !isFiltered name

/-- Whether an instruction is printed: the loop on `MemoryAccess` leaves at the first mnemonic
that the text starts with. -/
def isCandidate (text : List Char) : Bool :=
  MemoryAccess.any (fun mnemonic => strstr text mnemonic.toList = some 0) &&
    match strchr text '(' with
    | none => false
    | some p =>
      let operand := text.drop p
      let q := (strchr operand ')').getD operand.length
      let outside := fun found : Option Nat => found.all (q < ·)
      outside (strstr operand "sp".toList) && outside (strstr operand "bp".toList)

/-- The locals of `parse`, and what it has written. -/
structure Parser where
  relevant : Bool
  stdout : List Char
  stderr : List Char

/-- A round of the loop of `parse`. -/
def parseLine (work : Work) (matched : List Char → Bool) (s : Parser) (line : List Char) :
    Parser :=
  let buf := trim (cstr line)
  match isFunction buf with
  | some name =>
    if isRelevant matched name then
      match work with
      | .INSTR => { s with
          relevant := true
          stderr := s.stderr ++ "In function ".toList ++ name ++ ":\n".toList }
      | .FUNC => { s with
          relevant := true
          stdout := s.stdout ++ name ++ "|".toList }
    else { s with relevant := false }
  | none =>
    if s.relevant then
      match isInstruction buf with
      | some (address, text) =>
        if work = .INSTR ∧ isCandidate text then
          { s with
            stdout := s.stdout ++ hex16 '0' address ++ ": ".toList ++ text ++ "\n".toList }
        else s
      | none => s
    else s

/-- The loop of `parse`. -/
def parseLines (work : Work) (matched : List Char → Bool) (lines : List (List Char)) : Parser :=
  lines.foldl (parseLine work matched)
    { relevant := false
      stdout := if work = .FUNC then "^(".toList else []
      stderr := [] }

/-- `parse`: what it writes to the output. -/
def parse (work : Work) (matched : List Char → Bool) (file : List Char) : List Char :=
  (parseLines work matched (fgetsLines BUF_LEN file)).stdout ++
    if work = .FUNC then "iMpoSSiBlE)$\n".toList else []

/-- `input` when the regular expression is read from a file: the text that `regcomp` is given.
An empty file leaves its own name in the buffer. -/
def input (name file : List Char) : List Char :=
  trim (cstr (if file = [] then name else fgets (BUF_LEN - 1) file))

/-! ## Reading a line -/

/-- What the loop of `isInstruction` has read. -/
theorem instrAddress_eq_some {buf : List Char} {n : Nat} {address : Word}
    (read : instrAddress buf n = some address) :
    n ≤ buf.length ∧ (∀ c ∈ buf.take n, isAddressChar c) ∧
      address = readHex addressDigit (buf.take n) := by
  induction n generalizing address with
  | zero => exact ⟨Nat.zero_le _, by simp, by simpa [instrAddress, readHex] using read.symm⟩
  | succ n ih =>
    rw [instrAddress, List.range_succ, List.foldlM_append] at read
    obtain ⟨before, earlier, last⟩ := Option.bind_eq_some_iff.mp read
    obtain ⟨inside, digits, rfl⟩ := ih earlier
    simp only [List.foldlM_cons, List.foldlM_nil, bind_pure] at last
    split at last
    · rename_i digit
      have more : n < buf.length := by
        by_contra short
        rw [List.getD_eq_default _ _ (Nat.le_of_not_lt short)] at digit
        exact absurd digit (by decide)
      rw [List.getD_eq_getElem _ _ more] at digit last
      have front : buf.take (n + 1) = buf.take n ++ [buf[n]] :=
        List.take_succ_eq_append_getElem more
      refine ⟨more, fun c member => ?_, ?_⟩
      · rw [front, List.mem_append, List.mem_singleton] at member
        rcases member with before | rfl
        · exact digits c before
        · exact digit
      · rw [front, readHex_concat]
        exact (Option.some.inj last).symm
    · exact absurd last (by simp)

/-- The check accepts no other characters than `%lx` prints. -/
theorem isHexDigit_of_isAddressChar {c : Char} (digit : isAddressChar c) : IsHexDigit c := by
  have decimals : ∀ d < 10, Char.ofNat (48 + d) = Nat.digitChar d := by decide
  have letters : ∀ d < 6, Char.ofNat (97 + d) = Nat.digitChar (10 + d) := by decide
  have self := Char.ofNat_toNat c
  simp only [isAddressChar, Bool.or_eq_true, Bool.and_eq_true, decide_eq_true_eq] at digit
  rcases digit with ⟨low, high⟩ | ⟨low, high⟩
  · have low : 48 ≤ c.toNat := Char.le_def.mp low
    have high : c.toNat ≤ 57 := Char.le_def.mp high
    refine ⟨c.toNat - 48, by omega, ?_⟩
    rw [← decimals _ (by omega), show 48 + (c.toNat - 48) = c.toNat by omega, self]
  · have low : 97 ≤ c.toNat := Char.le_def.mp low
    have high : c.toNat ≤ 102 := Char.le_def.mp high
    refine ⟨10 + (c.toNat - 97), by omega, ?_⟩
    rw [← letters _ (by omega), show 97 + (c.toNat - 97) = c.toNat by omega, self]

/-- The loop gives every digit that the check accepts its value. -/
theorem addressDigit_reads : ReadsHex addressDigit := by
  unfold ReadsHex
  decide

/-- The address is written at the start of its line as `%016lx` prints it. -/
theorem hex16_address {buf text : List Char} {address : Word}
    (read : isInstruction buf = some (address, text)) :
    16 ≤ buf.length ∧ hex16 '0' address = buf.take 16 := by
  obtain ⟨address', loop, pair⟩ := Option.map_eq_some_iff.mp read
  obtain ⟨long, digits, value⟩ := instrAddress_eq_some loop
  obtain ⟨rfl, -⟩ := Prod.mk.inj pair
  refine ⟨long, ?_⟩
  rw [value]
  exact hex16_readHex addressDigit_reads
    (fun c member => isHexDigit_of_isAddressChar (digits c member)) (List.length_take_of_le long)

/-- The text of an instruction is the rest of its line, from some column on. -/
theorem text_suffix {buf text : List Char} {address : Word}
    (read : isInstruction buf = some (address, text)) : ∃ k, 40 ≤ k ∧ text = buf.drop k := by
  obtain ⟨address', loop, pair⟩ := Option.map_eq_some_iff.mp read
  obtain ⟨-, same⟩ := Prod.mk.inj pair
  split at same
  · exact ⟨40, Nat.le_refl 40, same.symm⟩
  · exact ⟨40, Nat.le_refl 40, by rw [← same, List.drop_eq_nil_of_le (by omega)]⟩

/-! ## What a run prints -/

/-- What an `INSTR` run prints of a line. -/
def instrText (buf : List Char) : List Char :=
  match isInstruction buf with
  | some (address, text) => hex16 '0' address ++ ": ".toList ++ text
  | none => []

/-- A line inside a selected function that is printed. -/
def isPrinted (buf : List Char) : Bool := (isInstruction buf).any fun instr => isCandidate instr.2

/-- The lines that an `INSTR` run prints, trimmed. -/
def printedLines (matched : List Char → Bool) : Bool → List (List Char) → List (List Char)
  | _, [] => []
  | relevant, line :: lines =>
    let buf := trim (cstr line)
    match isFunction buf with
    | some name => printedLines matched (isRelevant matched name) lines
    | none =>
      if relevant && isPrinted buf then buf :: printedLines matched relevant lines
      else printedLines matched relevant lines

/-- The loop of an `INSTR` run appends the texts of its lines to what is written already. -/
theorem foldl_parseLine_INSTR (matched : List Char → Bool) (s : Parser)
    (lines : List (List Char)) :
    (lines.foldl (parseLine .INSTR matched) s).stdout =
      s.stdout ++ (printedLines matched s.relevant lines).flatMap (instrText · ++ ['\n']) := by
  induction lines generalizing s with
  | nil => simp [printedLines]
  | cons line lines ih =>
    rw [List.foldl_cons, ih, printedLines]
    simp only [parseLine]
    cases header : isFunction (trim (cstr line)) with
    | some name =>
      simp only
      cases selected : isRelevant matched name <;> simp
    | none =>
      simp only
      cases inside : s.relevant with
      | false => simp [inside]
      | true =>
        cases read : isInstruction (trim (cstr line)) with
        | none => simp [isPrinted, read, inside]
        | some instr =>
          obtain ⟨address, text⟩ := instr
          cases listed : isCandidate text with
          | false => simp [isPrinted, read, listed, inside]
          | true => simp [isPrinted, instrText, read, listed]

/-- The output of an `INSTR` run is the text of each printed line, on a line. -/
theorem parse_INSTR (matched : List Char → Bool) (file : List Char) :
    parse .INSTR matched file =
      ((printedLines matched false (fgetsLines BUF_LEN file)).map instrText).flatMap
        (· ++ ['\n']) := by
  rw [parse, parseLines, foldl_parseLine_INSTR, List.flatMap_map]
  simp

/-- What is known of a line that is printed. -/
theorem mem_printedLines {matched : List Char → Bool} {relevant : Bool}
    {lines : List (List Char)} {buf : List Char}
    (printed : buf ∈ printedLines matched relevant lines) :
    (∃ line ∈ lines, buf = trim (cstr line)) ∧ isPrinted buf := by
  induction lines generalizing relevant with
  | nil => exact absurd printed List.not_mem_nil
  | cons line lines ih =>
    have later : ∀ {relevant}, buf ∈ printedLines matched relevant lines →
        (∃ line' ∈ line :: lines, buf = trim (cstr line')) ∧ isPrinted buf := by
      intro relevant printed
      obtain ⟨⟨line', listed, whole⟩, shown⟩ := ih printed
      exact ⟨⟨line', List.mem_cons_of_mem line listed, whole⟩, shown⟩
    rw [printedLines] at printed
    split at printed
    · exact later printed
    · split at printed
      · rename_i shown
        rcases List.mem_cons.mp printed with rfl | printed
        · exact ⟨⟨line, List.mem_cons_self, rfl⟩, (Bool.and_eq_true_iff.mp shown).2⟩
        · exact later printed
      · exact later printed

/-- What is printed of a line is one line, no longer than what stands at the start of it and the
line of the listing, and both begin with the same address. -/
theorem instrText_spec {buf : List Char} (printed : isPrinted buf) (whole : '\n' ∉ buf) :
    '\n' ∉ instrText buf ∧ (instrText buf).length ≤ 18 + (buf.length - 40) ∧
      16 ≤ (instrText buf).length ∧ (instrText buf).take 16 = buf.take 16 ∧
      ∃ address, buf.take 16 = hex16 '0' address := by
  obtain ⟨⟨address, text⟩, read, -⟩ := (Option.any_eq_true _ _).mp printed
  obtain ⟨-, digits⟩ := hex16_address read
  obtain ⟨column, fromColumn, rest⟩ := text_suffix read
  have line : instrText buf = hex16 '0' address ++ (": ".toList ++ text) := by
    rw [instrText, read]
    exact List.append_assoc _ _ _
  rw [line]
  refine ⟨?_, ?_, ?_, ?_, address, digits.symm⟩
  · simp only [List.mem_append, not_or]
    refine ⟨fun newline => ?_, by decide, fun newline => whole ?_⟩
    · obtain ⟨d, small, same⟩ := isHexDigit_of_mem_hex16 newline
      revert d
      decide
    · exact List.mem_of_mem_drop (rest ▸ newline)
  · have left : text.length = buf.length - column := by rw [rest, List.length_drop]
    rw [List.length_append, length_hex16, List.length_append, left]
    change 16 + (2 + (buf.length - column)) ≤ _
    omega
  · rw [List.length_append, length_hex16]
    omega
  · rw [List.take_append_of_le_length (by rw [length_hex16]),
      List.take_of_length_le (by rw [length_hex16]), digits]

end Analyzer

end Drddr
