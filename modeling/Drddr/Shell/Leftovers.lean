import Drddr.Shell
import Mathlib.Tactic.IntervalCases

/-!
# Leftovers in the line buffer

`load` reads sixteen characters of its buffer for each line, but `fgets` fills only as many as the
line has. An address is therefore a function of its line if the line and its end cover these
sixteen, and of what the buffer held before if they do not.
-/

namespace Drddr

open Machine

namespace Shell

/-- What `load` leaves in `address[i]`. -/
def storedAddress (s : Globals) (cmd argument file : List Char) (i : Nat) : Option Word :=
  match load (fun _ => some file) true true cmd argument s with
  | .ok loaded => some (loaded.globals.address i)
  | .error _ => none

/-- The line, as `fgets` takes it, that `load` reads into `address[i]`. -/
def lineOf (file : List Char) (i : Nat) : Option (List Char) := (fgetsLines BUF_SIZE file)[i]?

/-- A file whose addresses have room in the table. -/
def FitsTable (file : List Char) : Prop := (fgetsLines BUF_SIZE file).length ≤ N_ADDRESS

instance (file : List Char) : Decidable (FitsTable file) :=
  inferInstanceAs (Decidable (_ ≤ _))

/-! ## The rounds of the loop -/

/-- The buffer after the rounds, and their number. -/
theorem foldl_loadLine_buf (lines : List (List Char)) (s : Globals × Nat) :
    (lines.foldl loadLine s).1.buf = lines.foldl store s.1.buf ∧
      (lines.foldl loadLine s).2 = s.2 + lines.length := by
  induction lines generalizing s with
  | nil => exact ⟨rfl, rfl⟩
  | cons line lines ih =>
    have later := ih (loadLine s line)
    rw [List.foldl_cons, List.foldl_cons, List.length_cons]
    refine ⟨later.1, later.2.trans ?_⟩
    show s.2 + 1 + lines.length = s.2 + (lines.length + 1)
    omega

/-- A round stores where its number says; the addresses before stay. -/
theorem foldl_loadLine_address (lines : List (List Char)) (s : Globals × Nat) {k : Nat}
    (before : k < s.2) : (lines.foldl loadLine s).1.address k = s.1.address k := by
  induction lines generalizing s with
  | nil => rfl
  | cons line lines ih =>
    have later := ih (loadLine s line) (show k < s.2 + 1 by omega)
    rw [List.foldl_cons, later]
    exact Function.update_of_ne (by omega) _ _

/-- The address of a line is read from the buffer that the line has been put into. -/
theorem storedAddress_eq (s : Globals) (cmd argument : List Char) {file line : List Char}
    {i : Nat} (read : lineOf file i = some line) :
    storedAddress s cmd argument file i =
      some (readAddress (store (((fgetsLines BUF_SIZE file).take i).foldl store s.buf) line)) := by
  have inside : i < (fgetsLines BUF_SIZE file).length := (List.getElem?_eq_some_iff.mp read).1
  have here : (fgetsLines BUF_SIZE file)[i] = line := (List.getElem?_eq_some_iff.mp read).2
  have split : fgetsLines BUF_SIZE file =
      (fgetsLines BUF_SIZE file).take i ++ line :: (fgetsLines BUF_SIZE file).drop (i + 1) := by
    rw [← here, List.cons_getElem_drop_succ, List.take_append_drop]
  show some (((fgetsLines BUF_SIZE file).foldl loadLine (s, 0)).1.address i) = _
  have before := foldl_loadLine_buf ((fgetsLines BUF_SIZE file).take i) (s, 0)
  have number : (((fgetsLines BUF_SIZE file).take i).foldl loadLine (s, 0)).2 = i := by
    rw [before.2, List.length_take_of_le (Nat.le_of_lt inside)]
    exact Nat.zero_add i
  generalize (fgetsLines BUF_SIZE file).take i = earlier at *
  rw [split, List.foldl_append, List.foldl_cons, foldl_loadLine_address _ _ (by
    show i < (earlier.foldl loadLine (s, 0)).2 + 1
    omega)]
  rw [loadLine, number, before.1]
  exact congrArg some (Function.update_self _ _ _)

/-- The sixteenth character is the lowest digit. -/
theorem readAddress_succ (buf : Nat → Char) :
    readAddress buf =
      (List.range 15).foldl (fun address j => address * 16 + digit (buf j)) 0 * 16 +
        digit (buf 15) := by
  rw [readAddress, List.range_succ, List.foldl_append]
  rfl

/-- An address is read from sixteen characters and nothing beyond them. -/
theorem readAddress_congr {buf buf' : Nat → Char} (same : ∀ k < 16, buf k = buf' k) :
    readAddress buf = readAddress buf' := by
  have every : ∀ j ∈ List.range 16, ∀ address : Word,
      address * 16 + digit (buf j) = address * 16 + digit (buf' j) :=
    fun j listed address => congrArg (address * 16 + digit ·) (same j (List.mem_range.mp listed))
  exact List.foldl_ext _ _ 0 fun address j listed => every j listed address

/-! ## Two files with one line in common -/

/-- Fifteen zeros and a last digit. -/
def padding (last : Char) : List Char := List.replicate 15 '0' ++ [last]

/-- A file with the given line behind lines that differ from it. -/
def padded (last : Char) (i : Nat) (line : List Char) : List Char :=
  (List.replicate i (padding last)).flatMap (· ++ ['\n']) ++ line

/-- A padded file has the padding for its lines, and the line as its last one. -/
theorem fgetsLines_padded {last : Char} (other : last ≠ '\n') (i : Nat) {file line : List Char}
    (read : line ∈ fgetsLines BUF_SIZE file) :
    fgetsLines BUF_SIZE (padded last i line) =
      List.replicate i (padding last ++ ['\n']) ++ [line] := by
  have whole : ∀ text ∈ List.replicate i (padding last), '\n' ∉ text := by
    intro text listed
    rw [List.eq_of_mem_replicate listed]
    simp [padding, Ne.symm other]
  have fits : ∀ text ∈ List.replicate i (padding last), text.length + 1 < BUF_SIZE := by
    intro text listed
    rw [List.eq_of_mem_replicate listed]
    simp [padding, BUF_SIZE]
  rw [padded, fgetsLines_flatMap_append whole fits, fgetsLines_of_mem (by decide) read,
    List.map_replicate]

/-- The line is the last one of the padded file. -/
theorem lineOf_padded {last : Char} (other : last ≠ '\n') (i : Nat) {file line : List Char}
    (read : line ∈ fgetsLines BUF_SIZE file) : lineOf (padded last i line) i = some line := by
  rw [lineOf, fgetsLines_padded other i read, List.getElem?_append_right (by simp)]
  simp

/-- A padded file has no more lines than any file with the line in this place. -/
theorem fitsTable_padded {last : Char} (other : last ≠ '\n') {i : Nat} {file line : List Char}
    (few : FitsTable file) (read : lineOf file i = some line) :
    FitsTable (padded last i line) := by
  have inside : i < (fgetsLines BUF_SIZE file).length := (List.getElem?_eq_some_iff.mp read).1
  rw [FitsTable] at few
  rw [FitsTable, fgetsLines_padded other i (List.mem_of_getElem? read), List.length_append,
    List.length_replicate, List.length_singleton]
  omega

/-- A buffer that begins with padding. -/
def Padded (buf : Nat → Char) (last : Char) : Prop :=
  ∀ k < 16, buf k = if k = 15 then last else '0'

/-- A line of padding leaves a padded buffer. -/
theorem padded_store (buf : Nat → Char) (last : Char) :
    Padded (store buf (padding last ++ ['\n'])) last := by
  intro k front
  interval_cases k <;> rfl

/-- Any number of lines of padding leave a padded buffer. -/
theorem padded_foldl_store (buf : Nat → Char) (last : Char) {i : Nat} (later : 0 < i) :
    Padded ((List.replicate i (padding last ++ ['\n'])).foldl store buf) last := by
  obtain ⟨i, rfl⟩ := Nat.exists_eq_succ_of_ne_zero (Nat.ne_of_gt later)
  rw [List.replicate_succ', List.foldl_append]
  exact padded_store _ last

/-- A short line that is put into a padded buffer is read with the last digit of the padding. -/
theorem readAddress_padded {buf : Nat → Char} {last : Char} (before : Padded buf last)
    {line : List Char} (short : line.length < 15) :
    readAddress (store buf line) =
      (List.range 15).foldl
        (fun address j => address * 16 + digit (store (fun _ => '0') line j)) 0 * 16 +
          digit last := by
  have same : ∀ j ∈ List.range 15, store buf line j = store (fun _ => '0') line j := by
    intro j listed
    have front := List.mem_range.mp listed
    by_cases inside : j ≤ line.length
    · exact store_of_le _ _ inside
    · rw [store_of_lt _ (by omega), store_of_lt _ (by omega), before j (by omega),
        if_neg (by omega)]
  rw [readAddress_succ, store_of_lt _ short, before 15 (by decide), if_pos rfl]
  refine congrArg (fun front : Word => front * 16 + digit last) ?_
  exact List.foldl_ext _ _ 0 fun address j listed =>
    congrArg (fun c => address * 16 + digit c) (same j listed)

/-- Two last digits of the padding give two addresses to a short line. -/
theorem readAddress_padded_ne {buf buf' : Nat → Char} (before : Padded buf '0')
    (before' : Padded buf' '1') {line : List Char} (short : line.length < 15) :
    readAddress (store buf line) ≠ readAddress (store buf' line) := by
  rw [readAddress_padded before short, readAddress_padded before' short]
  exact fun same => absurd (add_left_cancel same) (by decide)

/-- A line that covers the sixteen characters is read from nothing else. -/
theorem storedAddress_long (s : Globals) (cmd argument : List Char) {file line : List Char}
    {i : Nat} (read : lineOf file i = some line) (long : 15 ≤ line.length) :
    storedAddress s cmd argument file i = some (readAddress (store (fun _ => '0') line)) := by
  rw [storedAddress_eq s cmd argument read]
  exact congrArg some (readAddress_congr fun k front => store_of_le _ _ (by omega))

/-- A short line behind others is read with what these have left behind it. -/
theorem storedAddress_padded_ne (s : Globals) (cmd argument : List Char) {file line : List Char}
    {i : Nat} (later : 0 < i) (read : line ∈ fgetsLines BUF_SIZE file) (short : line.length < 15) :
    storedAddress s cmd argument (padded '0' i line) i ≠
      storedAddress s cmd argument (padded '1' i line) i := by
  have take : ∀ last : Char, last ≠ '\n' →
      (fgetsLines BUF_SIZE (padded last i line)).take i =
        List.replicate i (padding last ++ ['\n']) := by
    intro last other
    rw [fgetsLines_padded other i read, List.take_left' (List.length_replicate ..)]
  rw [storedAddress_eq s cmd argument (lineOf_padded (by decide) i read),
    storedAddress_eq s cmd argument (lineOf_padded (by decide) i read), take '0' (by decide),
    take '1' (by decide)]
  intro same
  exact readAddress_padded_ne (padded_foldl_store s.buf '0' later)
    (padded_foldl_store s.buf '1' later) short (Option.some.inj same)

/-- A short first line is read with what an earlier load has left behind it. -/
theorem storedAddress_first_ne (s : Globals) (cmd argument : List Char) {file line : List Char}
    (read : lineOf file 0 = some line) (short : line.length < 15) :
    storedAddress { s with buf := store s.buf (padding '0' ++ ['\n']) } cmd argument file 0 ≠
      storedAddress { s with buf := store s.buf (padding '1' ++ ['\n']) } cmd argument file 0 := by
  rw [storedAddress_eq _ cmd argument read, storedAddress_eq _ cmd argument read]
  intro same
  exact readAddress_padded_ne (padded_store s.buf '0') (padded_store s.buf '1') short
    (Option.some.inj same)

/-- The address that `load` stores for a line depends on the line alone, for two loads that begin
with one buffer, just when it covers the sixteen characters that are read, its end included, or
is the first; for loads that begin with any two buffers, just when it covers them. -/
theorem storedAddress_line_iff (s : Globals) (cmd argument : List Char) {file line : List Char}
    {i : Nat} (few : FitsTable file) (read : lineOf file i = some line) :
    ((∀ file', FitsTable file' → lineOf file' i = some line →
        storedAddress s cmd argument file' i = storedAddress s cmd argument file i) ↔
      15 ≤ line.length ∨ i = 0) ∧
    ((∀ s' file', FitsTable file' → lineOf file' i = some line →
        storedAddress s' cmd argument file' i = storedAddress s cmd argument file i) ↔
      15 ≤ line.length) := by
  have listed : line ∈ fgetsLines BUF_SIZE file := List.mem_of_getElem? read
  have leaks : 0 < i → line.length < 15 →
      ¬ ∀ file', FitsTable file' → lineOf file' i = some line →
        storedAddress s cmd argument file' i = storedAddress s cmd argument file i := by
    intro later short alone
    have zero := alone (padded '0' i line) (fitsTable_padded (by decide) few read)
      (lineOf_padded (by decide) i listed)
    have one := alone (padded '1' i line) (fitsTable_padded (by decide) few read)
      (lineOf_padded (by decide) i listed)
    exact storedAddress_padded_ne s cmd argument later listed short (zero.trans one.symm)
  constructor
  · constructor
    · intro alone
      by_contra neither
      rw [not_or] at neither
      exact leaks (by omega) (by omega) alone
    · intro covered file' _ read'
      rcases covered with long | rfl
      · rw [storedAddress_long s cmd argument read' long,
          storedAddress_long s cmd argument read long]
      · rw [storedAddress_eq s cmd argument read', storedAddress_eq s cmd argument read,
          List.take_zero, List.take_zero]
  · constructor
    · intro alone
      by_contra short
      by_cases first : i = 0
      · rw [first] at alone read
        exact storedAddress_first_ne s cmd argument read (by omega)
          ((alone _ file few read).trans (alone _ file few read).symm)
      · exact leaks (by omega) (by omega) (alone s)
    · intro long s' file' _ read'
      rw [storedAddress_long s' cmd argument read' long,
        storedAddress_long s cmd argument read long]

/-- A file of two lines: sixteen zeros, and a short one. -/
def zeroThenShort : List Char := "0000000000000000\n1\n".toList

/-- The file that differs from `zeroThenShort` in the last digit of its first line. -/
def oneThenShort : List Char := "0000000000000001\n1\n".toList

set_option maxRecDepth 4096 in
/-- Two files with the same short second line get different addresses stored for it. -/
theorem storedAddress_leaks :
    FitsTable zeroThenShort ∧ FitsTable oneThenShort ∧
      lineOf zeroThenShort 1 = some "1\n".toList ∧ lineOf oneThenShort 1 = some "1\n".toList ∧
      storedAddress ⟨fun _ => nul, fun _ => 0⟩ "load".toList [] zeroThenShort 1 =
        some 0x1000000000000000#64 ∧
      storedAddress ⟨fun _ => nul, fun _ => 0⟩ "load".toList [] oneThenShort 1 =
        some 0x1000000000000001#64 := by
  decide

set_option maxRecDepth 4096 in
/-- The first line covers the sixteen characters: alone in a file it gives the same address, even
when the buffer held digits before. -/
theorem storedAddress_line_iff_first :
    storedAddress ⟨fun _ => 'f', fun _ => 0⟩ "load".toList [] "0000000000000001\n".toList 0 =
      storedAddress ⟨fun _ => nul, fun _ => 0⟩ "load".toList [] oneThenShort 0 :=
  (@storedAddress_line_iff ⟨fun _ => nul, fun _ => 0⟩ "load".toList [] oneThenShort
    "0000000000000001\n".toList 0 (by decide) (by decide)).2.mpr (by decide)
    ⟨fun _ => 'f', fun _ => 0⟩ "0000000000000001\n".toList (by decide) (by decide)

end Shell

end Drddr
