import Drddr.Analyzer
import Drddr.Machine.Ere.Search

/-!
# Two passes

A first run prints the names that it selects as one regular expression, which a second run reads.
The names are printed as they are: a character of a name that means something in a regular
expression means it in the second run.
-/

namespace Drddr

open Machine

namespace Analyzer

/-! ## The first run -/

/-- The names of the functions of a listing. -/
def headers (lines : List (List Char)) : List (List Char) :=
  lines.filterMap fun line => isFunction (trim (cstr line))

/-- The names of functions that a `FUNC` run prints. -/
def printedNames (matched : List Char → Bool) (lines : List (List Char)) : List (List Char) :=
  (headers lines).filter (isRelevant matched)

/-- The name that matches the expression even when none is selected. -/
def impossible : List Char := "iMpoSSiBlE".toList

/-- The loop of a `FUNC` run appends the printed names to what is written already. -/
theorem foldl_parseLine_FUNC (matched : List Char → Bool) (s : Parser)
    (lines : List (List Char)) :
    (lines.foldl (parseLine .FUNC matched) s).stdout =
      s.stdout ++ (printedNames matched lines).flatMap (· ++ ['|']) := by
  induction lines generalizing s with
  | nil => simp [printedNames, headers]
  | cons line lines ih =>
    rw [List.foldl_cons, ih]
    simp only [parseLine, printedNames, headers, List.filterMap_cons]
    cases header : isFunction (trim (cstr line)) with
    | some name =>
      simp only [List.filter_cons]
      cases selected : isRelevant matched name <;> simp
    | none =>
      simp only
      cases inside : s.relevant with
      | false => simp
      | true =>
        simp only [if_true]
        cases isInstruction (trim (cstr line)) <;> simp

/-- The output of a `FUNC` run, without its newline. -/
def alternation (names : List (List Char)) : List Char :=
  ['^', '('] ++ (names.flatMap (· ++ ['|']) ++ (impossible ++ [')', '$']))

/-- The output of a `FUNC` run is one expression with the printed names for its alternatives. -/
theorem parse_FUNC (matched : List Char → Bool) (file : List Char) :
    parse .FUNC matched file =
      alternation (printedNames matched (fgetsLines BUF_LEN file)) ++ ['\n'] := by
  rw [parse, parseLines, foldl_parseLine_FUNC]
  unfold alternation impossible
  simp

/-- A name has no other characters than its line. -/
theorem mem_of_isFunction {buf name : List Char} (header : isFunction buf = some name) {c : Char}
    (member : c ∈ name) : c ∈ buf := by
  rw [isFunction] at header
  split at header
  · exact absurd header (by simp)
  split at header
  · exact absurd header (by simp)
  split at header
  · exact absurd header (by simp)
  obtain ⟨p, -, rfl⟩ := Option.map_eq_some_iff.mp header
  exact List.mem_of_mem_drop (List.mem_of_mem_take member)

/-- The name in a header holds neither a newline nor the character that ends a string. -/
theorem not_mem_of_mem_headers {file name : List Char}
    (listed : name ∈ headers (fgetsLines BUF_LEN file)) : '\n' ∉ name ∧ nul ∉ name := by
  obtain ⟨line, read, header⟩ := List.mem_filterMap.mp listed
  refine ⟨fun newline => newline_not_mem_trim read (mem_of_isFunction header newline), ?_⟩
  intro ends
  have inside := (List.rdropWhile_prefix isControl _).subset (mem_of_isFunction header ends)
  exact absurd (List.mem_takeWhile_imp inside) (by simp)

/-! ## What the second run compiles -/

/-- The alternation holds no newline and no end of a string if no name does. -/
theorem not_mem_alternation {names : List (List Char)} {c : Char} (ends : c = '\n' ∨ c = nul)
    (names_clean : ∀ name ∈ names, c ∉ name) : c ∉ alternation names := by
  have start : c ∉ ['^', '('] := by rcases ends with rfl | rfl <;> decide
  have bar : c ∉ ['|'] := by rcases ends with rfl | rfl <;> decide
  have last : c ∉ impossible ++ [')', '$'] := by
    unfold impossible
    rcases ends with rfl | rfl <;> decide
  unfold alternation
  simp only [List.mem_append, List.mem_flatMap, not_or, not_exists, not_and] at start bar last ⊢
  exact ⟨start, fun name listed => ⟨names_clean name listed, bar⟩, last⟩

/-- The second run compiles the line as it was printed. -/
theorem input_parse_FUNC (matched : List Char → Bool) (name file : List Char)
    (fits : (parse .FUNC matched file).length < BUF_LEN) :
    input name (parse .FUNC matched file) =
      alternation (printedNames matched (fgetsLines BUF_LEN file)) := by
  rw [parse_FUNC] at fits ⊢
  generalize printed : printedNames matched (fgetsLines BUF_LEN file) = names at fits ⊢
  have clean : ∀ name ∈ names, '\n' ∉ name ∧ nul ∉ name := fun name listed =>
    not_mem_of_mem_headers (List.mem_of_mem_filter (printed ▸ listed))
  have whole := not_mem_alternation (.inl rfl) fun name listed => (clean name listed).1
  have unended := not_mem_alternation (.inr rfl) fun name listed => (clean name listed).2
  rw [List.length_append, List.length_singleton] at fits
  have line : fgets (BUF_LEN - 1) (alternation names ++ ['\n']) = alternation names ++ ['\n'] :=
    fgets_line whole (by omega) []
  have string : cstr (alternation names ++ ['\n']) = alternation names ++ ['\n'] := by
    apply cstr_eq_self
    intro member
    rcases List.mem_append.mp member with inside | newline
    · exact unended inside
    · exact absurd newline (by decide)
  have dollar : alternation names =
      ['^', '('] ++ (names.flatMap (· ++ ['|']) ++ (impossible ++ [')'])) ++ ['$'] := by
    unfold alternation
    simp only [List.append_assoc, List.cons_append, List.nil_append]
  rw [input, if_neg (by simp), line, string, trim, List.rdropWhile_concat_pos _ _ _ (by decide),
    dollar, List.rdropWhile_concat_neg _ _ _ (by decide)]

/-! ## What the second run selects -/

/-- Behind a header `relevant` says whether its function is selected. -/
theorem relevant_after_header (work : Work) (matched : List Char → Bool)
    {before : List (List Char)} {line name : List Char}
    (header : isFunction (trim (cstr line)) = some name) :
    (parseLines work matched (before ++ [line])).relevant = isRelevant matched name := by
  rw [parseLines, List.foldl_append, List.foldl_cons, List.foldl_nil, parseLine]
  simp only [header]
  split
  · rename_i selected
    rw [selected]
    cases work <;> rfl
  · rename_i selected
    exact (Bool.not_eq_true _ ▸ selected).symm

/-- The documented behaviour of `regcomp` with `REG_EXTENDED` and of `regexec`: a text that denotes
an expression is searched for in the string. -/
def Posix (regexec : List Char → List Char → Bool) : Prop :=
  ∀ pattern e, Ere.read pattern = some e → ∀ s, regexec pattern s ↔ e.Found s

/-- The name that is always among the alternatives stands for itself. -/
theorem covers_impossible (s : List Char) :
    (Ere.read impossible).isSome ∧ (Ere.Covers impossible s ↔ s = impossible) :=
  have letters : impossible = ['i', 'M', 'p', 'o', 'S', 'S', 'i', 'B', 'l', 'E'] := rfl
  Ere.covers_literal (by rw [letters]; simp [Ere.isPlain, Ere.Frame.special])
    (by rw [letters]; simp) (by rw [letters]; simp) s

/-- The second run selects the functions whose name is matched by one that was printed, and the
impossible one. -/
theorem second_pass_relevant {regexec : List Char → List Char → Bool} (posix : Posix regexec)
    {matched : List Char → Bool} {name listing : List Char}
    (fits : (parse .FUNC matched listing).length < BUF_LEN)
    (alone : ∀ printed ∈ printedNames matched (fgetsLines BUF_LEN listing),
      (Ere.read printed).isSome) (header : List Char) :
    isRelevant (regexec (input name (parse .FUNC matched listing))) header ↔
      ¬ isFiltered header ∧ (header = impossible ∨
        ∃ printed ∈ printedNames matched (fgetsLines BUF_LEN listing),
          Ere.Covers printed header) := by
  obtain ⟨e, denoted, found_iff⟩ :=
    Ere.read_alternation alone (covers_impossible header).1
  rw [input_parse_FUNC matched name listing fits, isRelevant, Bool.and_eq_true,
    posix (alternation _) e denoted, found_iff, (covers_impossible header).2, Bool.not_eq_true',
    Bool.not_eq_true, and_comm, or_comm]

end Analyzer

open Analyzer

/-- The second run treats exactly the functions as relevant whose names the first one printed if
and only if no other function of its listing, unless it is never selected, is the impossible one or
is matched whole by a printed name, and every printed name that its listing has is matched by a
printed one. -/
theorem second_pass_selects_iff {regexec : List Char → List Char → Bool} (posix : Posix regexec)
    (matched : List Char → Bool) (work : Work) (name first second : List Char)
    (fits : (parse .FUNC matched first).length < BUF_LEN)
    (alone : ∀ printed ∈ printedNames matched (fgetsLines BUF_LEN first),
      (Ere.read printed).isSome) :
    (∀ before line after header, fgetsLines BUF_LEN second = before ++ line :: after →
      isFunction (trim (cstr line)) = some header →
      ((parseLines work (regexec (input name (parse .FUNC matched first)))
          (before ++ [line])).relevant ↔
        header ∈ printedNames matched (fgetsLines BUF_LEN first))) ↔
    (∀ header ∈ headers (fgetsLines BUF_LEN second),
      header ∉ printedNames matched (fgetsLines BUF_LEN first) → ¬ isFiltered header →
      header ≠ impossible ∧ ∀ printed ∈ printedNames matched (fgetsLines BUF_LEN first),
        ¬ Ere.Covers printed header) ∧
    ∀ header ∈ headers (fgetsLines BUF_LEN second),
      header ∈ printedNames matched (fgetsLines BUF_LEN first) →
      header = impossible ∨ ∃ printed ∈ printedNames matched (fgetsLines BUF_LEN first),
        Ere.Covers printed header := by
  have relevant := @second_pass_relevant regexec posix matched name first fits alone
  have unfiltered : ∀ header ∈ printedNames matched (fgetsLines BUF_LEN first),
      ¬ isFiltered header := by
    intro header printed
    have selected := (List.mem_filter.mp printed).2
    rw [isRelevant, Bool.and_eq_true, Bool.not_eq_true'] at selected
    simp [selected.2]
  generalize printedNames matched (fgetsLines BUF_LEN first) = names at *
  constructor
  · intro exactly
    have decides : ∀ header ∈ headers (fgetsLines BUF_LEN second),
        isRelevant (regexec (input name (parse .FUNC matched first))) header ↔ header ∈ names := by
      intro header listed
      obtain ⟨line, read, isHeader⟩ := List.mem_filterMap.mp listed
      obtain ⟨before, after, lines⟩ := List.append_of_mem read
      rw [← exactly before line after header lines isHeader, relevant_after_header _ _ isHeader]
    refine ⟨fun header listed absent selectable => ?_, fun header listed printed => ?_⟩
    · have never := mt (decides header listed).mp absent
      rw [relevant] at never
      exact ⟨fun same => never ⟨selectable, .inl same⟩,
        fun printed among covers => never ⟨selectable, .inr ⟨printed, among, covers⟩⟩⟩
    · exact ((relevant header).mp ((decides header listed).mpr printed)).2
  · rintro ⟨outside, inside⟩ before line after header lines isHeader
    have listed : header ∈ headers (fgetsLines BUF_LEN second) :=
      List.mem_filterMap.mpr ⟨line, by rw [lines]; simp, isHeader⟩
    rw [relevant_after_header _ _ isHeader, relevant]
    refine ⟨fun ⟨selectable, matches_header⟩ => ?_,
      fun printed => ⟨unfiltered header printed, inside header listed printed⟩⟩
    by_contra absent
    obtain ⟨possible, uncovered⟩ := outside header listed absent selectable
    rcases matches_header with same | ⟨printed, among, covers⟩
    · exact possible same
    · exact uncovered printed among covers

/-- The search for what a text denotes behaves as documented. -/
theorem posix_grep : Posix Ere.grep := by
  intro pattern e denoted s
  rw [Ere.grep, denoted]
  exact Ere.search_iff e s

/-- A listing of one function that a compiler has cloned. -/
def clone : List Char := "0000000000000000 <foo.isra.0>:\n".toList

/-- A listing of another function, whose name differs in the places of the periods. -/
def other : List Char := "0000000000000000 <fooXisraX0>:\n".toList

set_option maxRecDepth 8192 in
/-- The clone alone is selected again. -/
theorem second_pass_selects_clone :
    (parseLines .INSTR (Ere.grep (input [] (parse .FUNC (fun _ => true) clone)))
      [clone]).relevant ↔
      "foo.isra.0".toList ∈ printedNames (fun _ => true) (fgetsLines BUF_LEN clone) := by
  have printed : printedNames (fun _ => true) (fgetsLines BUF_LEN clone) =
      ["foo.isra.0".toList] := by decide
  have names : headers (fgetsLines BUF_LEN clone) = ["foo.isra.0".toList] := by decide
  have itself : Ere.Covers "foo.isra.0".toList "foo.isra.0".toList :=
    (Ere.covers_plain (by simp [Ere.isPlain, Ere.Frame.special]) (by simp) _).2.mpr
      (List.forall₂_same.mpr fun c _ => .inr rfl)
  refine (second_pass_selects_iff posix_grep (fun _ => true) .INSTR [] clone clone (by decide)
    (by decide)).mpr ?_ [] clone [] _ (by decide) (by decide)
  rw [names, printed]
  refine ⟨fun header listed absent => absurd listed absent, fun header listed _ => .inr ?_⟩
  rw [List.mem_singleton.mp listed]
  exact ⟨_, List.mem_singleton_self _, itself⟩

set_option maxRecDepth 8192 in
/-- The second run may select a function that the first did not print: the periods of a printed name
match any character. -/
theorem second_pass_selects_other :
    ¬ ∀ (regexec : List Char → List Char → Bool), Posix regexec →
      ∀ (matched : List Char → Bool) (work : Work) (name first second : List Char),
      (parse .FUNC matched first).length < BUF_LEN →
      ∀ before line after header, fgetsLines BUF_LEN second = before ++ line :: after →
        isFunction (trim (cstr line)) = some header →
        ((parseLines work (regexec (input name (parse .FUNC matched first)))
            (before ++ [line])).relevant ↔
          header ∈ printedNames matched (fgetsLines BUF_LEN first)) := by
  intro exactly
  have wrong := (exactly Ere.grep posix_grep (fun _ => true) .INSTR [] clone other (by decide)
    [] other [] "fooXisraX0".toList (by decide) (by decide)).mp (by decide)
  exact absurd wrong (by decide)

end Drddr
