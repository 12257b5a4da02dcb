import Drddr.Analyzer.Candidates
import Drddr.Analyzer.TwoPass

/-!
# The program

`simple` takes its options one after another and opens the files that they name on the way. Then it
reads the regular expression, wherever that stands, and the listing. `work.sh` runs it twice.
-/

namespace Drddr

open Machine

namespace Analyzer

/-- `option.regex`. -/
inductive Regex where
  | STDIN
  | CMDLINE
  | FILE
  deriving DecidableEq, Repr

/-- The string in `buf`, `option`, the files that the two streams have been opened on, and the
contents of all files. -/
structure Simple where
  buf : List Char
  regex : Regex
  work : Work
  /-- `option.input` is `ALREADY`. -/
  already : Bool
  stdin : Option (List Char)
  stdout : Option (List Char)
  files : List Char → Option (List Char)

/-- How the program has ended: what it has written, and the files it leaves. -/
structure Exit where
  code : Nat
  stderr : List Char
  stdout : List Char
  files : List Char → Option (List Char)

/-- The program as it starts. -/
def Simple.start (files : List Char → Option (List Char)) : Simple :=
  { buf := []
    regex := .STDIN
    work := .INSTR
    already := false
    stdin := none
    stdout := none
    files }

/-- `exit(1)`, after a message. -/
def Simple.refuse (s : Simple) (message : String) : Exit :=
  { code := 1, stderr := message.toList, stdout := [], files := s.files }

/-- `parse_options`. A file that is opened for writing is empty from then on. -/
def parseOptions (s : Simple) : List (List Char) → Except Exit Simple
  | [] => .ok s
  | arg :: args =>
    if arg = "-r".toList then
      match args with
      | value :: args => parseOptions { s with buf := value, regex := .CMDLINE } args
      | [] => .error (s.refuse "-r should be followed with a regular expression.\n")
    else if arg = "-a".toList then
      parseOptions { s with buf := ".".toList, regex := .CMDLINE } args
    else if arg = "-f".toList then
      match args with
      | name :: args => parseOptions { s with buf := name, regex := .FILE } args
      | [] => .error (s.refuse "-r should be followed with a file name.\n")
    else if arg = "-i".toList then
      match args with
      | name :: args => parseOptions { s with stdin := some name, already := true } args
      | [] => .error (s.refuse "-i should be followed with a file name.\n")
    else if arg = "-o".toList then
      match args with
      | name :: args =>
        parseOptions
          { s with stdout := some name, files := Function.update s.files name (some []) } args
      | [] => .error (s.refuse "-o should be followed with a file name.\n")
    else if arg = "-O".toList then parseOptions { s with work := .FUNC } args
    else .error (s.refuse "Unrecognized parameter.\n")

/-- What is there to be read from `stdin`; of a file that could not be opened, nothing. -/
def Simple.text (s : Simple) (terminal : List Char) : List Char :=
  match s.stdin with
  | none => terminal
  | some name => (s.files name).getD []

/-- `input`: the text that `regcomp` is given, and what is left to be read from `stdin`. -/
def Simple.input (s : Simple) (text : List Char) : Except Exit (List Char × List Char) :=
  match s.regex with
  | .STDIN =>
    let line := fgets (BUF_LEN - 1) text
    .ok (trim (cstr (if text = [] then s.buf else line)), text.drop line.length)
  | .CMDLINE => .ok (trim (cstr s.buf), text)
  | .FILE =>
    match s.files s.buf with
    | none =>
      .error
        { code := 0, stderr := "Failed to open file.\n".toList, stdout := [], files := s.files }
    | some file => .ok (Analyzer.input s.buf file, text)

/-- `vmlinux.objd`, which `parse` reads when no listing has been named. -/
def vmlinux : List Char := "vmlinux.objd".toList

/-- The end of `main`, when the expression is known: `parse`, and the file that is written. -/
def Simple.finish (s : Simple) (matched : List Char → Bool) (rest : List Char) : Exit :=
  let listing := if s.already then rest else (s.files vmlinux).getD []
  let output := parse s.work matched listing
  { code := 0
    stderr := "Begin compiling...\nFinished compiling.\n".toList ++
      (parseLines s.work matched (fgetsLines BUF_LEN listing)).stderr
    stdout := if s.stdout = none then output else []
    files := s.stdout.elim s.files fun name => Function.update s.files name (some output) }

/-- `main`; `regexec` is given the text that has been compiled. -/
def main (regexec : List Char → List Char → Bool) (argv : List (List Char))
    (terminal : List Char) (files : List Char → Option (List Char)) : Exit :=
  match parseOptions (.start files) argv with
  | .error exit => exit
  | .ok s =>
    match s.input (s.text terminal) with
    | .error exit => exit
    | .ok found => s.finish (regexec found.1) found.2

/-! ## Command lines -/

/-- An option with what follows it. -/
inductive Flag where
  | r (regex : List Char)
  | a
  | f (name : List Char)
  | i (name : List Char)
  | o (name : List Char)
  | O
  deriving DecidableEq

/-- The arguments of an option. -/
def Flag.args : Flag → List (List Char)
  | r regex => ["-r".toList, regex]
  | a => ["-a".toList]
  | f name => ["-f".toList, name]
  | i name => ["-i".toList, name]
  | o name => ["-o".toList, name]
  | O => ["-O".toList]

/-- The arguments of several options. -/
def commandLine (flags : List Flag) : List (List Char) := flags.flatMap Flag.args

/-- What an option asks for. -/
def Simple.take (s : Simple) : Flag → Simple
  | .r regex => { s with buf := regex, regex := .CMDLINE }
  | .a => { s with buf := ".".toList, regex := .CMDLINE }
  | .f name => { s with buf := name, regex := .FILE }
  | .i name => { s with stdin := some name, already := true }
  | .o name => { s with stdout := some name, files := Function.update s.files name (some []) }
  | .O => { s with work := .FUNC }

/-- Arguments that begin with none: an option without what has to follow it, at the end, or
something else. -/
inductive Refused : List (List Char) → String → Prop where
  | r : Refused ["-r".toList] "-r should be followed with a regular expression.\n"
  | f : Refused ["-f".toList] "-r should be followed with a file name.\n"
  | i : Refused ["-i".toList] "-i should be followed with a file name.\n"
  | o : Refused ["-o".toList] "-o should be followed with a file name.\n"
  | other {arg : List Char} (args : List (List Char))
      (unknown : arg ∉ ["-r", "-a", "-f", "-i", "-o", "-O"].map String.toList) :
      Refused (arg :: args) "Unrecognized parameter.\n"

variable {s t : Simple} {args rest : List (List Char)}

/-- `parse_options` takes an option with its argument. -/
theorem parseOptions_flag (s : Simple) (flag : Flag) (rest : List (List Char)) :
    parseOptions s (flag.args ++ rest) = parseOptions (s.take flag) rest := by
  cases flag with
  | r | f | i | o => rfl
  | a | O => cases rest <;> rfl

/-- `parse_options` takes several options in their order. -/
theorem parseOptions_commandLine (s : Simple) (flags : List Flag) (rest : List (List Char)) :
    parseOptions s (commandLine flags ++ rest) = parseOptions (flags.foldl Simple.take s) rest := by
  induction flags generalizing s with
  | nil => rfl
  | cons flag flags ih =>
    rw [commandLine, List.flatMap_cons, List.append_assoc, parseOptions_flag]
    exact ih (s.take flag)

/-- `parse_options` refuses what is no option, with a message. -/
theorem parseOptions_refused {message : String} (refused : Refused rest message) :
    parseOptions s rest = .error (s.refuse message) := by
  cases refused with
  | r | f | i | o => rfl
  | other args unknown =>
    simp only [List.map_cons, List.map_nil, List.mem_cons, List.not_mem_nil, or_false,
      not_or] at unknown
    obtain ⟨r, a, f, i, o, O⟩ := unknown
    unfold parseOptions
    rw [if_neg r, if_neg a, if_neg f, if_neg i, if_neg o, if_neg O]

/-- Arguments begin with an option or are refused. -/
theorem exists_flag (arg : List Char) (args : List (List Char)) :
    (∃ flag : Flag, ∃ rest, arg :: args = flag.args ++ rest) ∨
      ∃ message, Refused (arg :: args) message := by
  by_cases known : arg ∈ ["-r", "-a", "-f", "-i", "-o", "-O"].map String.toList
  · simp only [List.map_cons, List.map_nil, List.mem_cons, List.not_mem_nil, or_false] at known
    rcases known with rfl | rfl | rfl | rfl | rfl | rfl
    · cases args with
      | nil => exact .inr ⟨_, .r⟩
      | cons value args => exact .inl ⟨.r value, args, rfl⟩
    · exact .inl ⟨.a, args, rfl⟩
    · cases args with
      | nil => exact .inr ⟨_, .f⟩
      | cons name args => exact .inl ⟨.f name, args, rfl⟩
    · cases args with
      | nil => exact .inr ⟨_, .i⟩
      | cons name args => exact .inl ⟨.i name, args, rfl⟩
    · cases args with
      | nil => exact .inr ⟨_, .o⟩
      | cons name args => exact .inl ⟨.o name, args, rfl⟩
    · exact .inl ⟨.O, args, rfl⟩
  · exact .inr ⟨_, .other args known⟩

/-- An option is at least one argument. -/
theorem Flag.args_length (flag : Flag) : 0 < flag.args.length := by
  cases flag <;> exact Nat.succ_pos _

/-- Any arguments are options, followed by nothing or by what is refused. -/
theorem exists_commandLine (args : List (List Char)) :
    ∃ flags rest, args = commandLine flags ++ rest ∧
      (rest = [] ∨ ∃ message, Refused rest message) := by
  induction size : args.length using Nat.strong_induction_on generalizing args with
  | _ n ih =>
    cases args with
    | nil => exact ⟨[], [], rfl, .inl rfl⟩
    | cons arg args =>
      rcases exists_flag arg args with ⟨flag, rest, same⟩ | refused
      · have longer := flag.args_length
        have lengths := congrArg List.length same
        rw [List.length_append] at lengths
        obtain ⟨flags, last, split, ends⟩ := ih rest.length (by omega) rest rfl
        refine ⟨flag :: flags, last, ?_, ends⟩
        rw [same, split, commandLine, commandLine, List.flatMap_cons, List.append_assoc]
      · exact ⟨[], arg :: args, rfl, .inr refused⟩

/-- It can be told which option some arguments begin with. -/
theorem Flag.args_append_inj {flag flag' : Flag} {rest rest' : List (List Char)}
    (same : flag.args ++ rest = flag'.args ++ rest') : flag = flag' ∧ rest = rest' := by
  cases flag <;> cases flag' <;> simp [Flag.args] at same ⊢ <;> exact same

/-- A command line is a list of options in one way only. -/
theorem commandLine_injective : Function.Injective commandLine := by
  intro flags
  induction flags with
  | nil =>
    intro flags' same
    cases flags' with
    | nil => rfl
    | cons flag flags' => cases flag <;> exact absurd same (List.cons_ne_nil _ _).symm
  | cons flag flags ih =>
    intro flags' same
    cases flags' with
    | nil => cases flag <;> exact absurd same (List.cons_ne_nil _ _)
    | cons flag' flags' =>
      obtain ⟨first, others⟩ := Flag.args_append_inj same
      rw [first, ih others]

/-! ## The script -/

/-- `$SUBPROJECT.objd`. -/
def fsObjd : List Char := "fs.objd".toList

/-- `$SUBPROJECT.regex`. -/
def fsRegex : List Char := "fs.regex".toList

/-- `$SUBPROJECT.addr`. -/
def fsAddr : List Char := "fs.addr".toList

/-- The two runs of `work.sh`, from the listings that `objdump` has written on. -/
def workScript (regexec : List Char → List Char → Bool) (terminal : List Char)
    (files : List Char → Option (List Char)) : Exit :=
  let first := main regexec ["-i".toList, fsObjd, "-O".toList, "-o".toList, fsRegex] terminal files
  main regexec ["-f".toList, fsRegex, "-o".toList, fsAddr] terminal first.files

variable {regexec : List Char → List Char → Bool} {terminal : List Char}
  {files : List Char → Option (List Char)}

/-- The first run takes the first line of the listing for the regular expression, and writes what
it selects of the others. -/
theorem main_first {listing : List Char} (found : files fsObjd = some listing) :
    (main regexec ["-i".toList, fsObjd, "-O".toList, "-o".toList, fsRegex] terminal files).files =
      Function.update (Function.update files fsRegex (some [])) fsRegex
        (some (parse .FUNC (regexec (trim (cstr (fgets (BUF_LEN - 1) listing))))
          (listing.drop (fgets (BUF_LEN - 1) listing).length))) := by
  have accepted := parseOptions_commandLine (.start files) [.i fsObjd, .O, .o fsRegex] []
  have text : (Function.update files fsRegex (some [])) fsObjd = some listing := by
    rw [Function.update_of_ne (by decide), found]
  have line : (if listing = [] then [] else fgets (BUF_LEN - 1) listing) =
      fgets (BUF_LEN - 1) listing := by
    split
    · rename_i none
      rw [none]
      rfl
    · rfl
  have options : parseOptions (.start files)
      ["-i".toList, fsObjd, "-O".toList, "-o".toList, fsRegex] =
        .ok ⟨[], .STDIN, .FUNC, true, some fsObjd, some fsRegex,
          Function.update files fsRegex (some [])⟩ := accepted
  unfold main
  rw [options]
  simp only [Simple.text, text, Option.getD_some, Simple.input, line]
  rfl

/-- The second run takes the regular expression from the file of the first one, and goes through
`vmlinux.objd`. -/
theorem main_second {expression listing : List Char} (found : files fsRegex = some expression)
    (kernel : files vmlinux = some listing) :
    (main regexec ["-f".toList, fsRegex, "-o".toList, fsAddr] terminal files).files fsAddr =
      some (parse .INSTR (regexec (input fsRegex expression)) listing) := by
  have accepted := parseOptions_commandLine (.start files) [.f fsRegex, .o fsAddr] []
  have options : parseOptions (.start files) ["-f".toList, fsRegex, "-o".toList, fsAddr] =
      .ok ⟨fsRegex, .FILE, .INSTR, false, none, some fsAddr,
        Function.update files fsAddr (some [])⟩ := accepted
  have text : (Function.update files fsAddr (some [])) fsRegex = some expression := by
    rw [Function.update_of_ne (by decide), found]
  have whole : (Function.update files fsAddr (some [])) vmlinux = some listing := by
    rw [Function.update_of_ne (by decide), kernel]
  unfold main
  rw [options]
  simp only [Simple.input, text, Simple.finish, Option.elim_some, Function.update_self,
    Bool.false_eq_true, if_false, whole, Option.getD_some]

/-- The file that the script leaves is the output of its second run on the kernel. -/
theorem workScript_addr {listing kernel : List Char} (found : files fsObjd = some listing)
    (whole : files vmlinux = some kernel) :
    (workScript regexec terminal files).files fsAddr =
      some (parse .INSTR (regexec (input fsRegex
        (parse .FUNC (regexec (trim (cstr (fgets (BUF_LEN - 1) listing))))
          (listing.drop (fgets (BUF_LEN - 1) listing).length)))) kernel) := by
  unfold workScript
  have first := @main_first regexec terminal files listing found
  apply main_second
  · rw [first, Function.update_self]
  · rw [first, Function.update_of_ne (by decide), Function.update_of_ne (by decide), whole]

/-! ## The functions of a listing -/

/-- What is read off the trimmed lines of a file is read off its lines. -/
theorem filterMap_file {β : Type} {read : List Char → Option β} (blank : read [] = none)
    {lines : List (List Char)} {file : List Char} (plain : ∀ line ∈ lines, PlainLine line)
    (whole : IsFileOf lines file) :
    (fgetsLines BUF_LEN file).filterMap (fun line => read (trim (cstr line))) =
      lines.filterMap read := by
  induction lines generalizing file with
  | nil =>
    rcases whole with rfl | unended
    · rfl
    · exact absurd unended (by simp)
  | cons line lines ih =>
    have here := plain line List.mem_cons_self
    have short := here.short
    obtain ⟨newline, self, trimmed⟩ := here.clean
    have later := fun other member => plain other (List.mem_cons_of_mem line member)
    rcases isFileOf_cons whole with ⟨rest, rfl, others⟩ | ⟨rfl, same⟩
    · by_cases fits : line.length + 1 < BUF_LEN
      · rw [fgetsLines_line newline fits, List.filterMap_cons, List.filterMap_cons, trimmed,
          ih later others]
      · have full : line.length + 1 = BUF_LEN := by omega
        have more : line ≠ [] := by
          rintro rfl
          exact absurd full (by decide)
        have empty : read (trim (cstr ['\n'])) = none := blank
        rw [fgetsLines_full newline full more, List.filterMap_cons, List.filterMap_cons (a := line),
          self, List.filterMap_cons, empty, ih later others]
    · rw [same]
      by_cases empty : line = []
      · rw [empty, List.filterMap_cons, blank]
        rfl
      · rw [fgetsLines_last newline short empty, List.filterMap_cons, List.filterMap_cons, self]
        rfl

/-- A function of a listing, unless it is never selected. -/
def IsFunctionOf (lines : List (List Char)) (name : List Char) : Prop :=
  (∃ line ∈ lines, IsHeader line name) ∧ IsSelectedName (fun _ => true) name

/-- The functions of a listing are those that are printed when every name matches. -/
theorem mem_printedNames {lines : List (List Char)} {file name : List Char}
    (plain : ∀ line ∈ lines, PlainLine line) (whole : IsFileOf lines file) :
    name ∈ printedNames (fun _ => true) (fgetsLines BUF_LEN file) ↔ IsFunctionOf lines name := by
  have same : headers (fgetsLines BUF_LEN file) = lines.filterMap isFunction :=
    filterMap_file (by decide) plain whole
  rw [printedNames, same, List.mem_filter, List.mem_filterMap, isRelevant_iff]
  simp only [isFunction_iff]
  rfl

/-- The functions that the second run selects: those of the kernel that a function of the subproject
matches whole, and one that is named as the last alternative of the expression. -/
def SelectsFrom (subproject : List (List Char)) (selected : List Char → Bool) : Prop :=
  ∀ name, IsSelectedName selected name ↔ IsSelectedName (fun _ => true) name ∧
    (name = impossible ∨ ∃ function, IsFunctionOf subproject function ∧ Ere.Covers function name)

/-- What the second run of the script selects, when the listing of the subproject begins with an
empty line. -/
theorem workScript_selects (posix : Posix regexec) (empty : ∀ name, regexec [] name)
    {subproject : List (List Char)} (plain : ∀ line ∈ subproject, PlainLine line)
    {listing kernel : List Char} (whole : IsFileOf ([] :: subproject) listing)
    (fits : (parse .FUNC (fun _ => true) (listing.drop 1)).length < BUF_LEN)
    (alone : ∀ name, IsFunctionOf subproject name → (Ere.read name).isSome)
    (found : files fsObjd = some listing) (found' : files vmlinux = some kernel) :
    ∃ selected, SelectsFrom subproject selected ∧
      (workScript regexec terminal files).files fsAddr = some (parse .INSTR selected kernel) := by
  have every : regexec [] = fun _ => true := funext empty
  have first : trim (cstr (fgets (BUF_LEN - 1) listing)) = [] ∧
      listing.drop (fgets (BUF_LEN - 1) listing).length = listing.drop 1 ∧
        IsFileOf subproject (listing.drop 1) := by
    rcases isFileOf_cons whole with ⟨rest, rfl, others⟩ | ⟨rfl, rfl⟩
    · have line : fgets (BUF_LEN - 1) ([] ++ '\n' :: rest) = ['\n'] := rfl
      rw [line]
      exact ⟨by decide, rfl, others⟩
    · exact ⟨by decide, rfl, .inl rfl⟩
  obtain ⟨blank, behind, others⟩ := first
  have names (name : List Char) := @mem_printedNames subproject (listing.drop 1) name plain others
  refine ⟨regexec (input fsRegex (parse .FUNC (fun _ => true) (listing.drop 1))), ?_, ?_⟩
  · intro name
    have selects := @second_pass_relevant regexec posix (fun _ => true) fsRegex (listing.drop 1)
      fits (fun printed member => alone printed ((names printed).mp member)) name
    have unfiltered : ¬isFiltered name ↔ IsSelectedName (fun _ => true) name := by
      rw [← isRelevant_iff, isRelevant, Bool.true_and, Bool.not_eq_true, Bool.not_eq_true']
    rw [isRelevant_iff, unfiltered] at selects
    simp only [names] at selects
    exact selects
  · rw [workScript_addr found found', blank, behind, every]

end Analyzer

open Analyzer

/-- A command line is accepted just when it is a list of options, each with what has to follow it,
in one way then, and they are taken one after another. It is refused at the first argument that is
none of them, with the message for it, and the files that have been named for output before are
empty. -/
theorem options_iff (s : Simple) (args : List (List Char)) :
    (∀ t, parseOptions s args = .ok t ↔
      ∃! flags, args = commandLine flags ∧ t = flags.foldl Simple.take s) ∧
    ∀ exit, parseOptions s args = .error exit ↔
      ∃ flags rest message, args = commandLine flags ++ rest ∧ Refused rest message ∧
        exit = (flags.foldl Simple.take s).refuse message := by
  have accepted (flags : List Flag) :
      parseOptions s (commandLine flags) = .ok (flags.foldl Simple.take s) := by
    rw [← List.append_nil (commandLine flags), parseOptions_commandLine]
    rfl
  have refuses {flags : List Flag} {rest : List (List Char)} {message : String}
      (refused : Refused rest message) : parseOptions s (commandLine flags ++ rest) =
        .error ((flags.foldl Simple.take s).refuse message) := by
    rw [parseOptions_commandLine, parseOptions_refused refused]
  obtain ⟨flags, rest, rfl, ends⟩ := exists_commandLine args
  constructor
  · intro t
    constructor
    · intro ok
      rcases ends with rfl | ⟨message, refused⟩
      · rw [List.append_nil, accepted] at ok
        refine ⟨flags, ⟨List.append_nil _, (Except.ok.inj ok).symm⟩, ?_⟩
        intro flags' other
        exact commandLine_injective (other.1.symm.trans (List.append_nil _))
      · rw [refuses refused] at ok
        cases ok
    · intro unique
      obtain ⟨flags', ⟨same, rfl⟩, -⟩ := unique
      rw [same]
      exact accepted flags'
  · intro exit
    constructor
    · intro error
      rcases ends with rfl | ⟨message, refused⟩
      · rw [List.append_nil, accepted] at error
        cases error
      · rw [refuses refused] at error
        exact ⟨flags, rest, message, rfl, refused, (Except.error.inj error).symm⟩
    · intro found
      obtain ⟨flags', rest', message, same, refused, rfl⟩ := found
      rw [same]
      exact refuses refused

end Drddr
