import Drddr.Driver.Ctrl
import Drddr.Shell

/-!
# A session of the shell

The shell takes its input line by line into one buffer, cuts the control characters off the end
and looks at what the rest begins with. What stands behind the name of a command is taken from a
fixed place in the buffer, which the line may not reach.
-/

namespace Drddr

open Machine

namespace Shell

/-! ## Commands -/

/-- The string in `cmd` from a place on. -/
def stringAt (cmd : Nat → Char) (k : Nat) : List Char :=
  cstr (front (fun j => cmd (k + j)) (CMD_SIZE - k))

/-- `while (cmd[0] != '\0' && cmd[strlen(cmd)-1] < ' ') cmd[strlen(cmd)-1] = 0x0`. -/
def cut (cmd : Nat → Char) : Nat → Char := fun k =>
  if (trim (stringAt cmd 0)).length ≤ k ∧ k < (stringAt cmd 0).length then nul else cmd k

/-- The white space that `sscanf` passes over. -/
def isSpace (c : Char) : Bool := c = ' ' || (9 ≤ c.toNat && c.toNat ≤ 13)

/-- The number that the digits at the front of a text are. -/
def scanDigits (text : List Char) : Option Nat :=
  let digits := text.takeWhile Char.isDigit
  if digits = [] then none
  else some (digits.foldl (fun n c => n * 10 + (c.toNat - '0'.toNat)) 0)

/-- `sscanf` with `"%d"`, for numbers that an `int` holds. -/
def scanInt (text : List Char) : Option Int :=
  let text := text.dropWhile isSpace
  if text.head? = some '-' then (scanDigits text.tail).map fun n => -(n : Int)
  else if text.head? = some '+' then (scanDigits text.tail).map fun n => (n : Int)
  else (scanDigits text).map fun n => (n : Int)

/-- What the shell takes a command for. -/
inductive Request where
  | start
  | stop
  | exit
  /-- With what stands behind the name. -/
  | load (cmd argument : List Char)
  | param (x : Option Int)
  | status
  | help
  | unknown (cmd : List Char)
  deriving DecidableEq

/-- The comparisons of `main`, with what `load` takes from behind its name and the number that
`param` reads there. -/
def request (cmd : Nat → Char) : Request :=
  let text := stringAt cmd 0
  if strstr text "start".toList = some 0 then .start
  else if strstr text "end".toList = some 0 then .stop
  else if strstr text "exit".toList = some 0 then .exit
  else if strstr text "load".toList = some 0 then .load text (stringAt cmd 5)
  else if strstr text "param".toList = some 0 then .param (scanInt (stringAt cmd 6))
  else if strstr text "status".toList = some 0 then .status
  else if strstr text "help".toList = some 0 then .help
  else .unknown text

/-! ## What they do -/

/-- What the shell writes to the files of the driver. -/
inductive Write where
  | ctrl (text : String)
  /-- The words to `address`, their number to `addresscnt`. -/
  | list (words : List Word)
  | param (x : Int)

/-- The files of the driver: which of them can be opened for writing, and what is read from
`monitor`, if it can be opened, when so much has been written. -/
structure Debugfs where
  ctrl : Bool
  address : Bool
  addresscnt : Bool
  param : Bool
  monitor : List Write → Option (List Char)

/-- Whether the shell still takes commands. -/
inductive Status where
  | running
  | exited
  /-- A file has been used that could not be opened. -/
  | crashed
  deriving DecidableEq

/-- The shell but for `cmd`, and what it has written. -/
structure Console where
  globals : Globals
  stdout : List Char
  stderr : List Char
  writes : List Write
  status : Status

namespace Console

/-- A message. -/
def complain (s : Console) (message : List Char) : Console :=
  { s with stderr := s.stderr ++ message }

/-- `start` and `stop`. -/
def control (d : Debugfs) (s : Console) (text : String) : Console :=
  if d.ctrl then { s with writes := s.writes ++ [.ctrl text] }
  else s.complain "Failed to open DRDDR control file.\n".toList

/-- The functions that `main` calls. `param` tests another pointer than that of its file, and
`status` tests none. -/
def perform (d : Debugfs) (files : List Char → Option (List Char)) (s : Console) :
    Request → Console
  | .start => s.control d "start"
  | .stop => s.control d "stop"
  | .exit => { s with status := .exited }
  | .load cmd argument =>
    match load files d.address d.addresscnt cmd argument s.globals with
    | .error message => s.complain message
    | .ok loaded =>
      { s with
        globals := loaded.globals
        stdout := s.stdout ++ loaded.stdout
        writes := s.writes ++ [.list loaded.address] }
  | .param none => s.complain "\"Param\" command needs a parameter.\n".toList
  | .param (some x) =>
    if d.param then { s with writes := s.writes ++ [.param x] } else { s with status := .crashed }
  | .status =>
    match d.monitor s.writes with
    | none => { s with status := .crashed }
    | some text => { s with stdout := s.stdout ++ text }
  | .help =>
    { s with
      stdout := s.stdout ++ ("Available commands:\n" ++
        "start|end|exit|load [filename]|param <param>|status|help\n" ++ "\n").toList }
  | .unknown cmd => s.complain ("Syntax error. (read: \"".toList ++ cmd ++ "\")\n".toList)

/-- A round of `main` when it is known what is asked for. -/
def ask (d : Debugfs) (files : List Char → Option (List Char)) (s : Console) (r : Request) :
    Console :=
  if s.status = .running then
    let s := s.perform d files r
    if s.status = .running then { s with stdout := s.stdout ++ ">".toList } else s
  else s

/-- The console before the first line. -/
def start (g : Globals) : Console :=
  { globals := g, stdout := ">".toList, stderr := [], writes := [], status := .running }

end Console

/-- `cmd` after a line, before the command is looked at. -/
def nextCmd (cmd : Nat → Char) (line : List Char) : Nat → Char := cut (store cmd line)

/-- A round of `main`. -/
def mainRound (d : Debugfs) (files : List Char → Option (List Char)) (s : (Nat → Char) × Console)
    (line : List Char) : (Nat → Char) × Console :=
  let cmd := nextCmd s.1 line
  (cmd, s.2.ask d files (request cmd))

/-- `main`, from all that stands in its input. -/
def main (d : Debugfs) (files : List Char → Option (List Char)) (g : Globals)
    (stdin : List Char) : Console :=
  ((fgetsLines CMD_SIZE stdin).foldl (mainRound d files) (fun _ => nul, .start g)).2

/-- What a line is taken for by a shell that has read nothing else. -/
def lineRequest (line : List Char) : Request := request (nextCmd (fun _ => nul) line)

/-! ## The strings in the buffer -/

variable {cmd cmd' : Nat → Char} {line : List Char} {k n : Nat}

/-- A string ends at the first place with an end. -/
theorem stringAt_of_first {first : Nat} (inside : k + first < CMD_SIZE)
    (before : ∀ j < first, cmd (k + j) ≠ nul) (ends : cmd (k + first) = nul) :
    stringAt cmd k = front (fun j => cmd (k + j)) first := by
  apply takeWhile_front
  · omega
  · intro j below
    exact decide_eq_true (before j below)
  · exact decide_eq_false (not_not.mpr ends)

/-- A string has a first end if it has one. -/
theorem exists_first (ends : cmd n = nul) (le : k ≤ n) :
    ∃ first, k + first ≤ n ∧ (∀ j < first, cmd (k + j) ≠ nul) ∧ cmd (k + first) = nul := by
  have found : ∃ j, cmd (k + j) = nul := ⟨n - k, by rw [Nat.add_sub_cancel' le]; exact ends⟩
  have most : Nat.find found ≤ n - k :=
    Nat.find_min' found (by rw [Nat.add_sub_cancel' le]; exact ends)
  exact ⟨Nat.find found, by omega, fun j below => Nat.find_min found below, Nat.find_spec found⟩

/-- A string in the buffer depends on the places up to an end. -/
theorem stringAt_congr (same : ∀ j ≤ n, cmd j = cmd' j) (ends : cmd n = nul)
    (inside : n < CMD_SIZE) (le : k ≤ n) : stringAt cmd k = stringAt cmd' k := by
  obtain ⟨first, most, before, here⟩ := exists_first ends le
  have before' : ∀ j < first, cmd' (k + j) ≠ nul := by
    intro j below
    rw [← same (k + j) (by omega)]
    exact before j below
  have here' : cmd' (k + first) = nul := by
    rw [← same (k + first) most]
    exact here
  rw [stringAt_of_first (by omega) before here, stringAt_of_first (by omega) before' here']
  apply List.map_congr_left
  intro j member
  have below := List.mem_range.mp member
  exact same (k + j) (by omega)

/-- Cutting leaves an end where there is one. -/
theorem cut_nul (ends : cmd k = nul) : cut cmd k = nul := by
  unfold cut
  split
  · rfl
  · exact ends

/-- What is cut off is what `trim` takes off the string. -/
theorem stringAt_cut (ends : cmd n = nul) (inside : n < CMD_SIZE) :
    stringAt (cut cmd) 0 = trim (stringAt cmd 0) := by
  obtain ⟨first, most, before, here⟩ := exists_first ends (Nat.zero_le n)
  simp only [Nat.zero_add] at most before here
  have text : stringAt cmd 0 = front cmd first := by
    rw [@stringAt_of_first cmd 0 first]
    · simp only [Nat.zero_add]
    · omega
    · simpa only [Nat.zero_add] using before
    · simpa only [Nat.zero_add] using here
  have size : (stringAt cmd 0).length = first := by rw [text, length_front]
  have shorter : trim (stringAt cmd 0) <+: stringAt cmd 0 := List.rdropWhile_prefix _ _
  have le := shorter.length_le
  generalize length : (trim (stringAt cmd 0)).length = m at le
  have left (j : Nat) (below : j < m) : cut cmd j = cmd j := by
    unfold cut
    rw [length, if_neg (by omega)]
  have gone : cut cmd m = nul := by
    by_cases all : m = first
    · rw [all]
      exact cut_nul here
    · unfold cut
      rw [length, if_pos (by omega)]
  have cutText : stringAt (cut cmd) 0 = front (cut cmd) m := by
    rw [@stringAt_of_first (cut cmd) 0 m]
    · simp only [Nat.zero_add]
    · omega
    · intro j below
      rw [Nat.zero_add, left j below]
      exact before j (by omega)
    · rw [Nat.zero_add]
      exact gone
  have trimmed : trim (stringAt cmd 0) = front cmd m := by
    rw [List.prefix_iff_eq_take.mp shorter, length, text, take_front cmd (by omega)]
  rw [cutText, trimmed]
  apply List.map_congr_left
  intro j member
  exact left j (List.mem_range.mp member)

/-! ## One line -/

/-- A line that `fgets` takes into the buffer. -/
def IsLine (line : List Char) : Prop := line.length < CMD_SIZE

instance (line : List Char) : Decidable (IsLine line) := inferInstanceAs (Decidable (_ < _))

/-- A line that is stored ends in the buffer. -/
theorem store_end (cmd : Nat → Char) (line : List Char) : store cmd line line.length = nul := by
  simp [store]

/-- A line that is stored is the string at the start of the buffer. -/
theorem stringAt_store (cmd : Nat → Char) (fits : IsLine line) :
    stringAt (store cmd line) 0 = cstr line := by
  obtain ⟨d, size⟩ := Nat.exists_eq_add_of_lt fits
  have held : front (store cmd line) line.length = line := by
    apply front_of_list
    intro j below
    have inside : j < (line ++ [nul]).length := by simp; omega
    rw [store, List.getD_eq_getElem _ _ inside, List.getElem_append_left below,
      List.getElem?_eq_getElem below]
  have rest : front (fun j => store cmd line (line.length + j)) (1 + d) =
      nul :: front (fun j => store cmd line (line.length + (1 + j))) d := by
    rw [front_add]
    exact congrArg (· :: _) (store_end cmd line)
  unfold stringAt cstr
  simp only [Nat.zero_add]
  rw [Nat.sub_zero, size, Nat.add_assoc, Nat.add_comm d 1, front_add, held, rest,
    List.takeWhile_append]
  split
  · rename_i whole
    rw [List.takeWhile_cons_of_neg (by simp), List.append_nil]
    exact ((List.takeWhile_prefix _).eq_of_length whole).symm
  · rfl

/-- The command on a line is the trimmed line. -/
theorem stringAt_nextCmd (cmd : Nat → Char) (fits : IsLine line) :
    stringAt (nextCmd cmd line) 0 = trim (cstr line) := by
  rw [nextCmd, stringAt_cut (store_end cmd line) fits, stringAt_store cmd fits]

/-- What is read from a place that the line reaches is on the line. -/
theorem stringAt_nextCmd_congr (cmd cmd' : Nat → Char) (fits : IsLine line)
    (reaches : k ≤ line.length) :
    stringAt (nextCmd cmd line) k = stringAt (nextCmd cmd' line) k := by
  have same : ∀ j ≤ line.length, nextCmd cmd line j = nextCmd cmd' line j := by
    intro j inside
    unfold nextCmd cut
    rw [stringAt_store cmd fits, stringAt_store cmd' fits, store_of_le cmd cmd' inside]
  exact stringAt_congr same (cut_nul (store_end cmd line)) fits reaches

/-- A request is made of the command, and of what stands behind `load` and `param`. -/
theorem request_congr (text : stringAt cmd 0 = stringAt cmd' 0)
    (argument : "load".toList <+: stringAt cmd 0 → stringAt cmd 5 = stringAt cmd' 5)
    (number : "param".toList <+: stringAt cmd 0 → stringAt cmd 6 = stringAt cmd' 6) :
    request cmd = request cmd' := by
  unfold request
  rw [← text]
  by_cases load : strstr (stringAt cmd 0) "load".toList = some 0
  · simp only [if_pos load, argument (strstr_eq_zero.mp load)]
  · by_cases param : strstr (stringAt cmd 0) "param".toList = some 0
    · simp only [if_neg load, number (strstr_eq_zero.mp param)]
    · simp only [if_neg load, if_neg param]

/-- The name of a command that takes something, without its newline: the line does not reach the
place that this is taken from. -/
def IsBare (line : List Char) : Prop := line = "load".toList ∨ line = "param".toList

instance (line : List Char) : Decidable (IsBare line) := inferInstanceAs (Decidable (_ ∨ _))

/-- A line that begins with a command and is not that alone is longer. -/
theorem length_of_begins {name : List Char} (fits : IsLine line) (more : line ≠ name)
    (begins : name <+: stringAt (nextCmd cmd line) 0) : name.length < line.length := by
  rw [stringAt_nextCmd cmd fits] at begins
  have front : name <+: line := begins.trans (trim_cstr_isFront line)
  have shorter : name.length ≤ line.length := front.length_le
  have longer : name.length ≠ line.length := fun same => more (front.eq_of_length same).symm
  omega

/-- A line that is not bare is taken for the same whatever the buffer holds. -/
theorem request_nextCmd (fits : IsLine line) (whole : ¬IsBare line) (cmd cmd' : Nat → Char) :
    request (nextCmd cmd line) = request (nextCmd cmd' line) := by
  obtain ⟨load, param⟩ := not_or.mp whole
  apply request_congr
  · rw [stringAt_nextCmd cmd fits, stringAt_nextCmd cmd' fits]
  · intro begins
    have longer : 4 < line.length := length_of_begins fits load begins
    exact stringAt_nextCmd_congr cmd cmd' fits (by omega)
  · intro begins
    have longer : 5 < line.length := length_of_begins fits param begins
    exact stringAt_nextCmd_congr cmd cmd' fits (by omega)

/-- A line that is not bare is taken for what it is taken for alone. -/
theorem request_eq_lineRequest (fits : IsLine line) (whole : ¬IsBare line) (cmd : Nat → Char) :
    request (nextCmd cmd line) = lineRequest line :=
  request_nextCmd fits whole cmd _

/-! ## Whole inputs -/

/-- The lines of an input fit. -/
theorem isLine_of_mem {stdin : List Char} (read : line ∈ fgetsLines CMD_SIZE stdin) :
    IsLine line := by
  obtain ⟨rest, -, rfl⟩ := fgets_of_mem_fgetsLines read
  exact Nat.lt_of_le_of_lt (length_fgets_le _ _) (by decide)

/-- Round after round what is asked for is asked for by the lines alone. -/
theorem foldl_mainRound (d : Debugfs) (files : List Char → Option (List Char))
    {lines : List (List Char)} (fit : ∀ line ∈ lines, IsLine line)
    (whole : ∀ line ∈ lines, ¬IsBare line) (s : (Nat → Char) × Console) :
    (lines.foldl (mainRound d files) s).2 =
      (lines.map lineRequest).foldl (Console.ask d files) s.2 := by
  induction lines generalizing s with
  | nil => rfl
  | cons line lines ih =>
    have first : request (nextCmd s.1 line) = lineRequest line :=
      request_eq_lineRequest (fit line List.mem_cons_self) (whole line List.mem_cons_self) s.1
    rw [List.foldl_cons, List.map_cons, List.foldl_cons,
      ih (fun line later => fit line (List.mem_cons_of_mem _ later))
        (fun line later => whole line (List.mem_cons_of_mem _ later)), ← first]
    rfl

end Shell

open Shell

/-- The buffer after some lines. -/
def cmdAfter (lines : List (List Char)) : Nat → Char := lines.foldl nextCmd fun _ => nul

/-- A line is taken for the same behind any other lines just when it is not a bare `load` or
`param`, which can only be the last one of an input, without its newline. So an input without that
does what its lines do, each by itself. -/
theorem session_linewise :
    (∀ line, IsLine line →
      ((∀ lines, (∀ earlier ∈ lines, IsLine earlier) →
          request (nextCmd (cmdAfter lines) line) = lineRequest line) ↔ ¬IsBare line)) ∧
    ∀ (d : Debugfs) (files : List Char → Option (List Char)) (g : Globals) (stdin : List Char),
      (∀ line ∈ fgetsLines CMD_SIZE stdin, ¬IsBare line) →
      main d files g stdin =
        ((fgetsLines CMD_SIZE stdin).map lineRequest).foldl (Console.ask d files) (.start g) := by
  constructor
  · intro line fits
    constructor
    · intro always bare
      rcases bare with rfl | rfl
      · have leftover := always ["load 7\n".toList] (by decide)
        revert leftover
        decide
      · have leftover := always ["param 7\n".toList] (by decide)
        revert leftover
        decide
    · intro whole lines _
      exact request_eq_lineRequest fits whole _
  · intro d files g stdin whole
    exact foldl_mainRound d files (fun line read => isLine_of_mem read) whole _

/-- All files of the driver can be opened but `monitor`. -/
def allOpen : Debugfs := ⟨true, true, true, true, fun _ => none⟩

/-- A file with one address to load. -/
def oneLine (name : List Char) : Option (List Char) :=
  if name = "input.txt".toList then some "0000000000001000\n".toList else none

/-- The globals of the shell when nothing has been loaded. -/
def unread : Globals := ⟨fun _ => nul, fun _ => 0⟩

set_option maxRecDepth 8192 in
/-- An input of three lines makes three requests. -/
theorem session_linewise_three :
    main allOpen oneLine unread "load\nstart\nend\n".toList =
      [Request.load "load".toList [], .start, .stop].foldl (Console.ask allOpen oneLine)
        (.start unread) :=
  session_linewise.2 allOpen oneLine unread "load\nstart\nend\n".toList (by decide)

end Drddr
