import Drddr.Analyzer

/-!
# The candidate instructions

What the analyzer is for: a listing in, the memory accesses off the stack in the selected
functions out. Headers, accesses and the function a line belongs to are stated here in terms of
the listing, and an `INSTR` run prints exactly the lines so described.
-/

namespace Drddr

open Machine

namespace Analyzer

/-! ## The listing -/

/-- A lowercase hex digit. -/
def IsLowerHex (c : Char) : Prop := c ∈ "0123456789abcdef".toList

/-- A line begins with sixteen lowercase hex digits. -/
def HasAddress (line : List Char) : Prop :=
  16 ≤ line.length ∧ ∀ c ∈ line.take 16, IsLowerHex c

/-- A function header: an address and a name in angle brackets. -/
def IsHeader (line name : List Char) : Prop :=
  HasAddress line ∧ '>' ∉ name ∧
    ∃ rest, line.drop 16 = " <".toList ++ (name ++ '>' :: rest)

/-- The instruction on a line. -/
def instruction (line : List Char) : List Char := line.drop 40

/-- The text of an instruction that may access memory: it begins with a listed mnemonic. -/
def IsAccess (text : List Char) : Prop := ∃ mnemonic ∈ MemoryAccess, mnemonic.toList <+: text

/-- The first operand in parentheses of a text names neither stack register. -/
def OffStack (text : List Char) : Prop :=
  ∃ before operand rest, text = before ++ '(' :: (operand ++ rest) ∧ '(' ∉ before ∧
    ')' ∉ operand ∧ (rest = [] ∨ ∃ behind, rest = ')' :: behind) ∧
    ¬ "sp".toList <:+: operand ∧ ¬ "bp".toList <:+: operand

/-- A function is selected by its name. -/
def IsSelectedName (matched : List Char → Bool) (name : List Char) : Prop :=
  matched name ∧ (∀ part ∈ DangerousFunction, ¬ part.toList <:+: name) ∧
    ∀ whole ∈ FrequentFunction, name ≠ whole.toList

/-- The nearest header before a line is that of a selected function. -/
def InSelected (matched : List Char → Bool) (lines : List (List Char)) (i : Nat) : Prop :=
  ∃ j < i, ∃ name, IsHeader (lines.getD j []) name ∧ IsSelectedName matched name ∧
    ∀ k, j < k → k < i → ∀ other, ¬ IsHeader (lines.getD k []) other

/-- A line is a candidate: in a selected function, an instruction that accesses memory off the
stack. -/
structure IsCandidateLine (matched : List Char → Bool) (lines : List (List Char)) (i : Nat) :
    Prop where
  listed : i < lines.length
  noHeader : ∀ name, ¬ IsHeader (lines.getD i []) name
  address : HasAddress (lines.getD i [])
  access : IsAccess (instruction (lines.getD i []))
  offStack : OffStack (instruction (lines.getD i []))
  function : InSelected matched lines i

/-- What is printed of a line: its address and its instruction. -/
def printedAs (line : List Char) : List Char :=
  line.take 16 ++ ": ".toList ++ instruction line ++ "\n".toList

/-- A line of printable characters and tabs that does not end in a tab and is shorter than the
buffer. -/
structure PlainLine (line : List Char) : Prop where
  printable : ∀ c ∈ line, c = '\t' ∨ ' ' ≤ c ∧ c ≤ '~'
  ending : line.getLast? ≠ some '\t'
  short : line.length < BUF_LEN

/-- The file of some lines; the last one may lack its newline. -/
def IsFileOf (lines : List (List Char)) (file : List Char) : Prop :=
  file = lines.flatMap (· ++ ['\n']) ∨ file ++ ['\n'] = lines.flatMap (· ++ ['\n'])

/-! ## What the functions of the analyzer recognise -/

/-- The characters of an address are the digits. -/
theorem isAddressChar_iff {c : Char} : isAddressChar c ↔ IsLowerHex c := by
  constructor
  · intro digit
    obtain ⟨d, small, rfl⟩ := isHexDigit_of_isAddressChar digit
    have every : ∀ d < 16, Nat.digitChar d ∈ "0123456789abcdef".toList := by decide
    exact every d small
  · have every : "0123456789abcdef".toList.all isAddressChar = true := by decide
    exact fun digit => List.all_eq_true.mp every c digit

/-- `isInstruction` tests the first sixteen characters of a line for an address. -/
theorem all_isAddressChar_iff {buf : List Char} :
    ((List.range 16).all fun i => isAddressChar (buf.getD i nul)) ↔ HasAddress buf := by
  rw [List.all_eq_true]
  constructor
  · intro every
    have inside : ∀ i < 16, i < buf.length := by
      intro i small
      by_contra outside
      have digit := every i (List.mem_range.mpr small)
      rw [List.getD_eq_default _ _ (Nat.le_of_not_lt outside)] at digit
      exact absurd digit (by decide)
    refine ⟨inside 15 (by decide), fun c member => ?_⟩
    obtain ⟨i, small, rfl⟩ := List.mem_iff_getElem.mp member
    rw [List.length_take] at small
    have digit := every i (List.mem_range.mpr (by omega))
    rw [List.getD_eq_getElem _ _ (by omega)] at digit
    rw [List.getElem_take]
    exact isAddressChar_iff.mp digit
  · intro ⟨long, digits⟩ i listed
    have small := List.mem_range.mp listed
    rw [List.getD_eq_getElem _ _ (by omega)]
    refine isAddressChar_iff.mpr (digits _ (List.mem_iff_getElem.mpr ⟨i, ?_, ?_⟩))
    · rw [List.length_take]
      omega
    · exact List.getElem_take

/-- What `isFunction` looks at behind the address. -/
def headerName (behind : List Char) : Option (List Char) :=
  if behind.getD 0 nul ≠ ' ' then none
  else if behind.getD 1 nul ≠ '<' then none
  else (strchr (behind.drop 2) '>').map fun p => (behind.drop 2).take p

/-- `isFunction` looks at a name in angle brackets behind the address. -/
theorem headerName_iff {behind name : List Char} :
    headerName behind = some name ↔
      '>' ∉ name ∧ ∃ rest, behind = " <".toList ++ (name ++ '>' :: rest) := by
  constructor
  · intro header
    rw [headerName] at header
    split at header
    · exact absurd header (by simp)
    · rename_i blank
      split at header
      · exact absurd header (by simp)
      · rename_i bracket
        obtain ⟨p, found, rfl⟩ := Option.map_eq_some_iff.mp header
        obtain ⟨before, rest, split', absent, rfl⟩ := strchr_eq_some.mp found
        rw [split', List.take_left]
        refine ⟨absent, rest, ?_⟩
        rw [← split']
        match behind, blank, bracket with
        | [], blank, _ => exact absurd (show nul ≠ ' ' by decide) blank
        | [c], _, bracket => exact absurd (show nul ≠ '<' by decide) bracket
        | c :: d :: behind, blank, bracket =>
          have first : c = ' ' := not_not.mp blank
          have second : d = '<' := not_not.mp bracket
          rw [first, second]
          rfl
  · rintro ⟨absent, rest, rfl⟩
    have found : strchr (name ++ '>' :: rest) '>' = some name.length :=
      strchr_eq_some.mpr ⟨name, rest, rfl, absent, rfl⟩
    show (strchr (name ++ '>' :: rest) '>').map (fun p => (name ++ '>' :: rest).take p) = some name
    rw [found, Option.map_some, List.take_left]

/-- `isFunction` accepts the headers. -/
theorem isFunction_iff {buf name : List Char} :
    isFunction buf = some name ↔ IsHeader buf name := by
  have place : ∀ k, buf.getD (16 + k) nul = (buf.drop 16).getD k nul := by
    intro k
    rw [List.getD_eq_getElem?_getD, List.getD_eq_getElem?_getD, List.getElem?_drop]
  have whole : isFunction buf =
      if !(List.range 16).all fun i => isAddressChar (buf.getD i nul) then none
      else headerName (buf.drop 16) := by
    rw [isFunction, headerName, ← place 0, ← place 1, List.drop_drop]
  rw [whole, IsHeader, ← headerName_iff, ← all_isAddressChar_iff]
  cases (List.range 16).all fun i => isAddressChar (buf.getD i nul) <;> simp

/-- The loop of `isInstruction` runs to its end over digits. -/
theorem instrAddress_isSome {buf : List Char} (address : HasAddress buf) {n : Nat} (le : n ≤ 16) :
    (instrAddress buf n).isSome := by
  induction n with
  | zero => rfl
  | succ n ih =>
    obtain ⟨before, read⟩ := Option.isSome_iff_exists.mp (ih (by omega))
    have digit := List.all_eq_true.mp (all_isAddressChar_iff.mpr address) n
      (List.mem_range.mpr (by omega))
    rw [instrAddress] at read ⊢
    rw [List.range_succ, List.foldlM_append, read]
    simp only [Option.bind_eq_bind, Option.bind_some, List.foldlM_cons, digit, if_true]
    rfl

/-- `isInstruction` accepts the lines with an address. -/
theorem isInstruction_iff {buf text : List Char} :
    (∃ address, isInstruction buf = some (address, text)) ↔
      HasAddress buf ∧ text = instruction buf := by
  have column : (if buf.length > 40 then buf.drop 40 else []) = instruction buf := by
    rw [instruction]
    split
    · rfl
    · exact (List.drop_eq_nil_of_le (by omega)).symm
  rw [isInstruction, column]
  constructor
  · intro ⟨address, read⟩
    obtain ⟨value, loop, pair⟩ := Option.map_eq_some_iff.mp read
    obtain ⟨long, digits, -⟩ := instrAddress_eq_some loop
    refine ⟨⟨long, fun c member => isAddressChar_iff.mp (digits c member)⟩, ?_⟩
    exact ((Prod.mk.inj pair).2).symm
  · rintro ⟨address, rfl⟩
    obtain ⟨value, loop⟩ := Option.isSome_iff_exists.mp
      (instrAddress_isSome address (Nat.le_refl 16))
    exact ⟨value, by rw [loop, Option.map_some]⟩

/-- A string without a closing parenthesis does not reach beyond one. -/
theorem prefix_before_close {front rest needle : List Char}
    (ends : rest = [] ∨ ∃ behind, rest = ')' :: behind) (close : ')' ∉ needle)
    (here : needle <+: front ++ rest) : needle <+: front := by
  rcases List.prefix_or_prefix_of_prefix here (List.prefix_append front rest) with short | long
  · exact short
  · obtain ⟨tail, rfl⟩ := long
    have inRest : tail <+: rest := (List.prefix_append_right_inj front).mp here
    cases tail with
    | nil => rw [List.append_nil]
    | cons c tail =>
      rcases ends with rfl | ⟨behind, rfl⟩
      · exact absurd (List.prefix_nil.mp inRest) (List.cons_ne_nil c tail)
      · have same : c = ')' := (List.cons_prefix_cons.mp inRest).1
        rw [same] at close
        exact absurd (List.mem_append_right front List.mem_cons_self) close

/-- The comparison of the places of a register and of the closing parenthesis: the register is not
named inside the parentheses. -/
theorem outside_iff {operand rest needle : List Char}
    (ends : rest = [] ∨ ∃ behind, rest = ')' :: behind) (start : '(' ∉ needle)
    (close : ')' ∉ needle) (more : needle ≠ []) :
    (strstr ('(' :: (operand ++ rest)) needle).all (operand.length + 1 < ·) ↔
      ¬ needle <:+: operand := by
  rw [Option.all_eq_true]
  constructor
  · rintro beyond ⟨before, behind, rfl⟩
    have here : needle <+:
        ('(' :: (before ++ needle ++ behind ++ rest)).drop (before.length + 1) := by
      rw [List.drop_succ_cons, List.append_assoc, List.append_assoc, List.drop_left]
      exact List.prefix_append needle _
    have inside : before.length + 1 ≤ ('(' :: (before ++ needle ++ behind ++ rest)).length := by
      simp only [List.length_cons, List.length_append]
      omega
    obtain ⟨k, le, found⟩ := strstr_le inside here
    have later := of_decide_eq_true (beyond k found)
    simp only [List.length_append] at later
    omega
  · intro absent k found
    rw [decide_eq_true_eq]
    by_contra early
    have here := strstr_eq_some found
    cases k with
    | zero =>
      obtain ⟨c, needle, rfl⟩ := List.exists_cons_of_ne_nil more
      have same : c = '(' := (List.cons_prefix_cons.mp here).1
      exact start (same ▸ List.mem_cons_self)
    | succ k =>
      rw [List.drop_succ_cons, List.drop_append_of_le_length (by omega)] at here
      have within := prefix_before_close ends close here
      exact absent (within.isInfix.trans (List.drop_suffix k operand).isInfix)

/-- The place of the closing parenthesis, or the end of the text. -/
theorem close_place {operand rest : List Char} (absent : ')' ∉ operand)
    (ends : rest = [] ∨ ∃ behind, rest = ')' :: behind) :
    (strchr ('(' :: (operand ++ rest)) ')').getD ('(' :: (operand ++ rest)).length =
      operand.length + 1 := by
  have notHere : ')' ∉ '(' :: operand := by
    rw [List.mem_cons, not_or]
    exact ⟨by decide, absent⟩
  rcases ends with rfl | ⟨behind, rfl⟩
  · rw [List.append_nil, strchr_eq_none.mpr notHere]
    rfl
  · have found : strchr ('(' :: (operand ++ ')' :: behind)) ')' = some (operand.length + 1) :=
      strchr_eq_some.mpr ⟨'(' :: operand, behind, rfl, notHere, rfl⟩
    rw [found]
    rfl

/-- Text from an opening parenthesis on has an operand and what is behind it. -/
theorem exists_operand (tail : List Char) :
    ∃ operand rest, tail = operand ++ rest ∧ ')' ∉ operand ∧
      (rest = [] ∨ ∃ behind, rest = ')' :: behind) := by
  refine ⟨tail.takeWhile (· ≠ ')'), tail.dropWhile (· ≠ ')'), List.takeWhile_append_dropWhile.symm,
    ?_, ?_⟩
  · intro member
    exact absurd (List.mem_takeWhile_imp member) (by decide)
  · cases left : tail.dropWhile (· ≠ ')') with
    | nil => exact .inl rfl
    | cons c behind =>
      have stops := List.head_dropWhile_not (· ≠ ')') (l := tail) (by
        rw [left]
        exact List.cons_ne_nil c behind)
      simp only [left, List.head_cons] at stops
      have same : c = ')' := by simpa using stops
      exact .inr ⟨behind, by rw [same]⟩

/-- The test of the operand in the loop on the mnemonics. -/
def namesNoRegister (text : List Char) : Bool :=
  match strchr text '(' with
  | none => false
  | some p =>
    let operand := text.drop p
    let q := (strchr operand ')').getD operand.length
    let outside := fun found : Option Nat => found.all (q < ·)
    outside (strstr operand "sp".toList) && outside (strstr operand "bp".toList)

/-- The search for the stack registers tests the first operand in parentheses. -/
theorem namesNoRegister_operand {before operand rest : List Char} (first : '(' ∉ before)
    (absent : ')' ∉ operand) (ends : rest = [] ∨ ∃ behind, rest = ')' :: behind) :
    namesNoRegister (before ++ '(' :: (operand ++ rest)) ↔
      ¬ "sp".toList <:+: operand ∧ ¬ "bp".toList <:+: operand := by
  have found : strchr (before ++ '(' :: (operand ++ rest)) '(' = some before.length :=
    strchr_eq_some.mpr ⟨before, _, rfl, first, rfl⟩
  rw [namesNoRegister, found]
  simp only [List.drop_left, close_place absent ends, Bool.and_eq_true]
  rw [outside_iff ends (by decide) (by decide) (by decide),
    outside_iff ends (by decide) (by decide) (by decide)]

/-- The search for the stack registers finds exactly the texts off the stack. -/
theorem namesNoRegister_iff {text : List Char} : namesNoRegister text ↔ OffStack text := by
  constructor
  · intro test
    cases found : strchr text '(' with
    | none =>
      rw [namesNoRegister, found] at test
      exact absurd test Bool.false_ne_true
    | some p =>
      obtain ⟨before, tail, rfl, first, -⟩ := strchr_eq_some.mp found
      obtain ⟨operand, rest, rfl, absent, ends⟩ := exists_operand tail
      obtain ⟨sp, bp⟩ := (namesNoRegister_operand first absent ends).mp test
      exact ⟨before, operand, rest, rfl, first, absent, ends, sp, bp⟩
  · rintro ⟨before, operand, rest, rfl, first, absent, ends, sp, bp⟩
    exact (namesNoRegister_operand first absent ends).mpr ⟨sp, bp⟩

/-- The loop on the mnemonics prints the accesses off the stack. -/
theorem isCandidate_iff {text : List Char} : isCandidate text ↔ IsAccess text ∧ OffStack text := by
  have access : MemoryAccess.any (fun mnemonic => strstr text mnemonic.toList = some 0) ↔
      IsAccess text := by
    simp only [List.any_eq_true, decide_eq_true_eq, strstr_eq_zero, IsAccess]
  rw [← access, ← namesNoRegister_iff, ← Bool.and_eq_true]
  rfl

/-- `relevant` after a header tells the selected names. -/
theorem isRelevant_iff {matched : List Char → Bool} {name : List Char} :
    isRelevant matched name ↔ IsSelectedName matched name := by
  simp only [isRelevant, isFiltered, Bool.and_eq_true, Bool.not_eq_true', Bool.or_eq_false_iff,
    List.any_eq_false, decide_eq_true_eq, strstr_isSome, IsSelectedName, ne_eq]

/-- What is printed inside a selected function. -/
theorem isPrinted_iff {buf : List Char} : isPrinted buf ↔
    HasAddress buf ∧ IsAccess (instruction buf) ∧ OffStack (instruction buf) := by
  rw [isPrinted, Option.any_eq_true]
  constructor
  · rintro ⟨⟨address, text⟩, read, candidate⟩
    obtain ⟨digits, rfl⟩ := isInstruction_iff.mp ⟨address, read⟩
    exact ⟨digits, isCandidate_iff.mp candidate⟩
  · rintro ⟨digits, candidate⟩
    obtain ⟨address, read⟩ := isInstruction_iff.mpr ⟨digits, rfl⟩
    exact ⟨⟨address, instruction buf⟩, read, isCandidate_iff.mpr candidate⟩

/-- A printed line of the output is the form in which a candidate is printed. -/
theorem instrText_eq {buf : List Char} (printed : isPrinted buf) :
    instrText buf ++ ['\n'] = printedAs buf := by
  obtain ⟨address, read⟩ := isInstruction_iff.mpr ⟨(isPrinted_iff.mp printed).1, rfl⟩
  rw [instrText, read, printedAs, ← (hex16_address read).2]
  rfl

/-! ## The lines that are printed -/

variable {matched : List Char → Bool}

/-- A line stands in a selected function when the lines follow others: before their first header
`relevant` tells. -/
def InSelectedFrom (matched : List Char → Bool) (relevant : Bool) (lines : List (List Char))
    (i : Nat) : Prop :=
  InSelected matched lines i ∨
    relevant ∧ ∀ k < i, ∀ other, ¬ IsHeader (lines.getD k []) other

/-- `relevant` after a line. -/
def relevantAfter (matched : List Char → Bool) (relevant : Bool) (line : List Char) : Bool :=
  match isFunction line with
  | some name => isRelevant matched name
  | none => relevant

/-- `relevant` stays as it is unless the line is a header. -/
theorem relevantAfter_iff {relevant : Bool} {line : List Char} :
    relevantAfter matched relevant line ↔
      (∃ name, IsHeader line name ∧ IsSelectedName matched name) ∨
        relevant ∧ ∀ name, ¬ IsHeader line name := by
  rw [relevantAfter]
  cases header : isFunction line with
  | some name =>
    have here := isFunction_iff.mp header
    constructor
    · exact fun selected => .inl ⟨name, here, isRelevant_iff.mp selected⟩
    · rintro (⟨other, there, selected⟩ | ⟨-, silent⟩)
      · have same := header.symm.trans (isFunction_iff.mpr there)
        rw [Option.some.inj same]
        exact isRelevant_iff.mpr selected
      · exact absurd here (silent name)
  | none =>
    have silent : ∀ name, ¬ IsHeader line name := by
      intro name there
      rw [isFunction_iff.mpr there] at header
      exact absurd header (by simp)
    constructor
    · exact fun still => .inr ⟨still, silent⟩
    · rintro (⟨other, there, -⟩ | ⟨still, -⟩)
      · exact absurd there (silent other)
      · exact still

/-- The lines behind the first one stand in selected functions as without it, with `relevant` as it
has left it. -/
theorem inSelectedFrom_succ {relevant : Bool} {line : List Char} {lines : List (List Char)}
    {i : Nat} :
    InSelectedFrom matched relevant (line :: lines) (i + 1) ↔
      InSelectedFrom matched (relevantAfter matched relevant line) lines i := by
  rw [InSelectedFrom, InSelectedFrom, relevantAfter_iff]
  constructor
  · rintro (⟨j, before, name, header, selected, silent⟩ | ⟨still, silent⟩)
    · cases j with
      | zero =>
        exact .inr ⟨.inl ⟨name, header, selected⟩,
          fun k small => silent (k + 1) (by omega) (by omega)⟩
      | succ j =>
        exact .inl ⟨j, by omega, name, header, selected,
          fun k after small => silent (k + 1) (by omega) (by omega)⟩
    · exact .inr ⟨.inr ⟨still, silent 0 (by omega)⟩, fun k small => silent (k + 1) (by omega)⟩
  · rintro (⟨j, before, name, header, selected, silent⟩ |
      ⟨⟨name, header, selected⟩ | ⟨still, first⟩, silent⟩)
    · refine .inl ⟨j + 1, by omega, name, header, selected, fun k after small => ?_⟩
      cases k with
      | zero => omega
      | succ k => exact silent k (by omega) (by omega)
    · refine .inl ⟨0, by omega, name, header, selected, fun k after small => ?_⟩
      cases k with
      | zero => omega
      | succ k => exact silent k (by omega)
    · refine .inr ⟨still, fun k small => ?_⟩
      cases k with
      | zero => exact first
      | succ k => exact silent k (by omega)

/-- A line that is printed when the lines follow others. -/
structure IsPrintedFrom (matched : List Char → Bool) (relevant : Bool) (lines : List (List Char))
    (i : Nat) : Prop where
  listed : i < lines.length
  noHeader : ∀ name, ¬ IsHeader (lines.getD i []) name
  printed : isPrinted (lines.getD i [])
  function : InSelectedFrom matched relevant lines i

/-- The first line is printed in a selected function only. -/
theorem isPrintedFrom_zero {relevant : Bool} {line : List Char} {lines : List (List Char)} :
    IsPrintedFrom matched relevant (line :: lines) 0 ↔
      isFunction line = none ∧ relevant ∧ isPrinted line := by
  have unheaded : isFunction line = none ↔ ∀ name, ¬ IsHeader line name := by
    rw [Option.eq_none_iff_forall_ne_some]
    exact forall_congr' fun name => not_congr isFunction_iff
  rw [unheaded]
  constructor
  · intro printed
    refine ⟨printed.noHeader, ?_, printed.printed⟩
    rcases printed.function with ⟨j, before, -⟩ | ⟨selected, -⟩
    · exact absurd before (Nat.not_lt_zero j)
    · exact selected
  · intro ⟨noHeader, selected, printed⟩
    refine ⟨Nat.succ_pos _, noHeader, printed, .inr ⟨selected, fun k before => ?_⟩⟩
    exact absurd before (Nat.not_lt_zero k)

/-- The lines behind the first one are printed as without it, with `relevant` as it has left it. -/
theorem isPrintedFrom_succ {relevant : Bool} {line : List Char} {lines : List (List Char)}
    {i : Nat} :
    IsPrintedFrom matched relevant (line :: lines) (i + 1) ↔
      IsPrintedFrom matched (relevantAfter matched relevant line) lines i := by
  constructor
  · intro printed
    exact ⟨Nat.lt_of_succ_lt_succ printed.listed, printed.noHeader, printed.printed,
      inSelectedFrom_succ.mp printed.function⟩
  · intro printed
    exact ⟨Nat.succ_lt_succ printed.listed, printed.noHeader, printed.printed,
      inSelectedFrom_succ.mpr printed.function⟩

/-- A round of the loop of `parse` prints the line or not, and leaves the others to the rounds after
it. -/
theorem printedLines_cons {line buf : List Char} (trimmed : trim (cstr line) = buf)
    (relevant : Bool) (lines : List (List Char)) :
    printedLines matched relevant (line :: lines) =
      (if isFunction buf = none ∧ relevant ∧ isPrinted buf then [buf] else []) ++
        printedLines matched (relevantAfter matched relevant buf) lines := by
  rw [printedLines, trimmed, relevantAfter]
  cases header : isFunction buf with
  | some name => simp
  | none =>
    simp only [true_and, Bool.and_eq_true]
    split <;> rfl

/-- A line that is trimmed to nothing is passed over. -/
theorem printedLines_blank {line : List Char} (blank : trim (cstr line) = []) (relevant : Bool)
    (lines : List (List Char)) :
    printedLines matched relevant (line :: lines) = printedLines matched relevant lines := by
  have nothing : isPrinted [] = false := rfl
  rw [printedLines_cons blank, nothing, if_neg (by simp)]
  rfl

/-- The lines that a run prints are given by their places. -/
theorem printedLines_places {lines : List (List Char)}
    (clean : ∀ line ∈ lines, trim (cstr line) = line) (relevant : Bool) :
    ∃ places : List Nat, places.Pairwise (· < ·) ∧
      (∀ i, i ∈ places ↔ IsPrintedFrom matched relevant lines i) ∧
      printedLines matched relevant lines = places.map fun i => lines.getD i [] := by
  induction lines generalizing relevant with
  | nil =>
    refine ⟨[], List.Pairwise.nil, fun i => ⟨fun member => absurd member List.not_mem_nil, ?_⟩, rfl⟩
    exact fun printed => absurd printed.listed (Nat.not_lt_zero i)
  | cons line lines ih =>
    obtain ⟨places, increasing, listed, printed⟩ := ih
      (fun line later => clean line (List.mem_cons_of_mem _ later))
      (relevantAfter matched relevant line)
    have later : (places.map (· + 1)).Pairwise (· < ·) :=
      List.pairwise_map.mpr (increasing.imp fun less => Nat.succ_lt_succ less)
    have succ : ∀ i, i + 1 ∈ places.map (· + 1) ↔
        IsPrintedFrom matched relevant (line :: lines) (i + 1) := by
      intro i
      rw [isPrintedFrom_succ, ← listed i]
      simp
    have notZero : 0 ∉ places.map (· + 1) := by simp
    have rest : printedLines matched (relevantAfter matched relevant line) lines =
        (places.map (· + 1)).map fun i => (line :: lines).getD i [] := by
      rw [printed, List.map_map]
      rfl
    rw [printedLines_cons (clean line List.mem_cons_self), rest]
    by_cases now : isFunction line = none ∧ relevant ∧ isPrinted line
    · refine ⟨0 :: places.map (· + 1), List.Pairwise.cons ?_ later, fun i => ?_, ?_⟩
      · intro i member
        exact Nat.pos_of_ne_zero fun zero => notZero (zero ▸ member)
      · cases i with
        | zero => exact ⟨fun _ => isPrintedFrom_zero.mpr now, fun _ => List.mem_cons_self⟩
        | succ i =>
          rw [← succ i, List.mem_cons]
          exact or_iff_right (Nat.succ_ne_zero i)
      · rw [if_pos now]
        rfl
    · refine ⟨places.map (· + 1), later, fun i => ?_, ?_⟩
      · cases i with
        | zero =>
          exact ⟨fun member => absurd member notZero,
            fun first => absurd (isPrintedFrom_zero.mp first) now⟩
        | succ i => exact succ i
      · rw [if_neg now]
        rfl

/-! ## Reading the file -/

/-- A plain line is read as it is. -/
theorem PlainLine.clean {line : List Char} (plain : PlainLine line) :
    '\n' ∉ line ∧ trim (cstr line) = line ∧ trim (cstr (line ++ ['\n'])) = line := by
  have absent : ∀ c : Char, c ≠ '\t' → ¬ ' ' ≤ c → c ∉ line := by
    intro c tab blank member
    rcases plain.printable c member with same | ⟨above, -⟩
    · exact tab same
    · exact blank above
  have string : nul ∉ line := absent nul (by decide) (by decide)
  have ending : ∀ c, line.getLast? = some c → ¬ isControl c := by
    intro c last
    have notTab : c ≠ '\t' := fun tab => plain.ending (tab ▸ last)
    rcases plain.printable c (List.mem_of_getLast? last) with tab | ⟨above, below⟩
    · exact absurd tab notTab
    · have above : 32 ≤ c.toNat := Char.le_def.mp above
      have below : c.toNat ≤ 126 := Char.le_def.mp below
      simp only [isControl, Bool.or_eq_true, decide_eq_true_eq]
      omega
  exact ⟨absent '\n' (by decide) (by decide), trim_cstr string ending,
    trim_cstr_newline string ending⟩

/-- A file of lines goes on behind its first line, or ends with it. -/
theorem isFileOf_cons {line file : List Char} {lines : List (List Char)}
    (whole : IsFileOf (line :: lines) file) :
    (∃ rest, file = line ++ '\n' :: rest ∧ IsFileOf lines rest) ∨ lines = [] ∧ file = line := by
  rcases whole with whole | open'
  · refine .inl ⟨lines.flatMap (· ++ ['\n']), ?_, .inl rfl⟩
    rw [whole, List.flatMap_cons, List.append_assoc]
    rfl
  · rw [List.flatMap_cons] at open'
    rcases List.eq_nil_or_concat lines with rfl | ⟨init, last, rfl⟩
    · rw [List.flatMap_nil, List.append_nil] at open'
      exact .inr ⟨rfl, List.append_cancel_right open'⟩
    · have ends : (init.concat last).flatMap (· ++ ['\n']) =
          init.flatMap (· ++ ['\n']) ++ last ++ ['\n'] := by
        rw [List.concat_eq_append, List.flatMap_append, List.flatMap_singleton, List.append_assoc]
      refine .inl ⟨init.flatMap (· ++ ['\n']) ++ last, ?_, .inr ends.symm⟩
      rw [ends, ← List.append_assoc] at open'
      rw [List.append_cancel_right open', List.append_assoc, List.singleton_append]

/-- What is printed of a file is what is printed of its lines. -/
theorem printedLines_file {lines : List (List Char)} {file : List Char}
    (plain : ∀ line ∈ lines, PlainLine line) (whole : IsFileOf lines file) (relevant : Bool) :
    printedLines matched relevant (fgetsLines BUF_LEN file) =
      printedLines matched relevant lines := by
  induction lines generalizing file relevant with
  | nil =>
    rcases whole with rfl | open'
    · rfl
    · exact absurd open' (by simp)
  | cons line lines ih =>
    have here := plain line List.mem_cons_self
    have short := here.short
    obtain ⟨newline, self, trimmed⟩ := here.clean
    have later := fun other member => plain other (List.mem_cons_of_mem line member)
    rcases isFileOf_cons whole with ⟨rest, rfl, others⟩ | ⟨rfl, same⟩
    · by_cases fits : line.length + 1 < BUF_LEN
      · rw [fgetsLines_line newline fits, printedLines_cons trimmed, printedLines_cons self,
          ih later others]
      · have full : line.length + 1 = BUF_LEN := by omega
        have more : line ≠ [] := by
          rintro rfl
          exact absurd full (by decide)
        rw [fgetsLines_full newline full more, printedLines_cons self, printedLines_cons self,
          printedLines_blank (by decide), ih later others]
    · rw [same]
      by_cases empty : line = []
      · rw [empty, printedLines_blank (by decide)]
        rfl
      · rw [fgetsLines_last newline short empty]

/-- The analyzer prints exactly the candidates, in the order of the listing and once each, every
one with its own address. -/
theorem parse_prints_candidates (matched : List Char → Bool) {lines : List (List Char)}
    {file : List Char} (plain : ∀ line ∈ lines, PlainLine line) (whole : IsFileOf lines file) :
    ∃ places : List Nat, places.Pairwise (· < ·) ∧
      (∀ i, i ∈ places ↔ IsCandidateLine matched lines i) ∧
      parse .INSTR matched file = (places.flatMap fun i => printedAs (lines.getD i [])) ∧
      ∀ i ∈ places, ∃ j < i, ∃ name, IsHeader (lines.getD j []) name := by
  obtain ⟨places, increasing, listed, printed⟩ := @printedLines_places matched lines
    (fun line member => (plain line member).clean.2.1) false
  have candidates : ∀ i, i ∈ places ↔ IsCandidateLine matched lines i := by
    intro i
    rw [listed i]
    constructor
    · intro here
      obtain ⟨digits, access, offStack⟩ := isPrinted_iff.mp here.printed
      refine ⟨here.listed, here.noHeader, digits, access, offStack, ?_⟩
      exact here.function.resolve_right fun first => Bool.false_ne_true first.1
    · intro here
      exact ⟨here.listed, here.noHeader,
        isPrinted_iff.mpr ⟨here.address, here.access, here.offStack⟩, .inl here.function⟩
  refine ⟨places, increasing, candidates, ?_, fun i member => ?_⟩
  · have each : ∀ i ∈ places, instrText (lines.getD i []) ++ ['\n'] =
        printedAs (lines.getD i []) := fun i member => instrText_eq ((listed i).mp member).printed
    rw [parse_INSTR, printedLines_file plain whole, printed, List.flatMap_map, List.flatMap_map]
    exact List.flatMap_congr each
  · obtain ⟨j, before, name, header, -⟩ := ((candidates i).mp member).function
    exact ⟨j, before, name, header⟩

/-- A function with an access off the stack and an access to the stack. -/
def twoAccesses : List (List Char) :=
  ["0000000000000000 <f>:".toList,
    "00000000fffffff0 \t89 07                \tmov    %eax,(%rdi)".toList,
    "00000000fffffff2 \t8b 45 08             \tmov    0x8(%rbp),%eax".toList]

set_option maxRecDepth 2048 in
/-- The lines of `twoAccesses` are plain. -/
theorem plainLine_twoAccesses : ∀ line ∈ twoAccesses, PlainLine line := by
  have printable : twoAccesses.all (fun line =>
      line.all fun c => c = '\t' || ' ' ≤ c && c ≤ '~') = true := by decide
  have ending : twoAccesses.all (fun line => line.getLast? ≠ some '\t') = true := by decide
  have short : twoAccesses.all (fun line => line.length < BUF_LEN) = true := by decide
  intro line member
  constructor
  · intro c inside
    have each := List.all_eq_true.mp (List.all_eq_true.mp printable line member) c inside
    simpa only [Bool.or_eq_true, Bool.and_eq_true, decide_eq_true_eq] using each
  · exact of_decide_eq_true (List.all_eq_true.mp ending line member)
  · exact of_decide_eq_true (List.all_eq_true.mp short line member)

/-- Of the listing `twoAccesses` exactly the candidates are printed. -/
theorem parse_prints_candidates_two :
    ∃ places : List Nat, places.Pairwise (· < ·) ∧
      (∀ i, i ∈ places ↔ IsCandidateLine (fun _ => true) twoAccesses i) ∧
      parse .INSTR (fun _ => true) (twoAccesses.flatMap (· ++ ['\n'])) =
        (places.flatMap fun i => printedAs (twoAccesses.getD i [])) ∧
      ∀ i ∈ places, ∃ j < i, ∃ name, IsHeader (twoAccesses.getD j []) name :=
  parse_prints_candidates (fun _ => true) plainLine_twoAccesses (.inl rfl)

end Analyzer

end Drddr
