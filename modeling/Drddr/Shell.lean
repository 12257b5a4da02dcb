import Drddr.Analyzer
import Drddr.Bp.Table

/-!
# The shell

`load` reads a list of addresses from a file, one a line, and hands it to the driver.
-/

namespace Drddr

open Machine

namespace Shell

/-- `BUF_SIZE`. -/
def BUF_SIZE : Nat := 33554432

/-- The globals of the shell that `load` uses. -/
structure Globals where
  buf : Nat → Char
  address : Nat → Word

/-- What a character adds to `address[i]`. -/
def digit (c : Char) : Word :=
  (if '0' ≤ c ∧ c ≤ '9' then BitVec.ofNat 64 (c.toNat - '0'.toNat) else 0) +
    (if 'a' ≤ c ∧ c ≤ 'f' then BitVec.ofNat 64 (c.toNat - 'a'.toNat + 10) else 0) +
    if 'A' ≤ c ∧ c ≤ 'F' then BitVec.ofNat 64 (c.toNat - 'A'.toNat + 10) else 0

/-- The inner loop of `load`, whatever the line holds. -/
def readAddress (buf : Nat → Char) : Word :=
  (List.range 16).foldl (fun address j => address * 16 + digit (buf j)) 0

/-- A round of the outer loop of `load`; `i` counts the rounds. -/
def loadLine (s : Globals × Nat) (line : List Char) : Globals × Nat :=
  let buf := store s.1.buf line
  ({ buf := buf, address := Function.update s.1.address s.2 (readAddress buf) }, s.2 + 1)

/-- What `load` leaves. -/
structure Loaded where
  globals : Globals
  stdout : List Char
  /-- Written to the `address` file of the driver. -/
  address : List Word
  /-- Written to its `addresscnt`. -/
  addresscnt : List Char

/-- The file that a `load` command names; the argument is the string at `cmd + 5`. -/
def loadName (cmd argument : List Char) : List Char :=
  if cmd = "load".toList then "input.txt".toList else argument

/-- `load`, with the contents of the files that can be read and whether the two of the driver can
be written; otherwise the message. The message shows the argument of a bare `load` as well, which
is what an earlier command has left behind the end of this one. -/
def load (files : List Char → Option (List Char)) (address addresscnt : Bool)
    (cmd argument : List Char) (s : Globals) : Except (List Char) Loaded :=
  match files (loadName cmd argument) with
  | none => .error
      ("Failed to load command list file \"".toList ++ argument ++ "\"!\n".toList)
  | some file =>
    if !address then .error "Failed to open DRDDR address file.\n".toList
    else if !addresscnt then .error "Failed to open DRDDR address count file.\n".toList
    else
      let (s, i) := (fgetsLines BUF_SIZE file).foldl loadLine (s, 0)
      .ok
        { globals := s
          stdout := "Read ".toList ++ decimal i ++ " addresses\n".toList
          address := (List.range i).map s.address
          addresscnt := decimal i }

/-! ## Reading a line -/

/-- The letters in both cases have their value, and the decimal digits. -/
theorem digit_reads : ReadsHex digit := by
  unfold ReadsHex
  decide

/-- A line of sixteen characters at least is read from these. -/
theorem readAddress_store (buf : Nat → Char) {line : List Char} (long : 16 ≤ line.length) :
    readAddress (store buf line) = readHex digit (line.take 16) := by
  have front : line.take 16 = (List.range 16).map (store buf line) := by
    apply List.ext_getElem
    · simp [long]
    · intro k short _
      rw [List.length_take_of_le long] at short
      have inside : k < (line ++ [nul]).length := by simp; omega
      simp only [List.getElem_take, List.getElem_map, List.getElem_range, store]
      rw [List.getD_eq_getElem _ _ inside, List.getElem_append_left]
  rw [front, readHex, List.foldl_map]
  rfl

/-- The lines are counted, their addresses follow those read before, and no others are stored. -/
theorem foldl_loadLine {lines : List (List Char)} (long : ∀ line ∈ lines, 16 ≤ line.length)
    (s : Globals × Nat) :
    (lines.foldl loadLine s).2 = s.2 + lines.length ∧
      (List.range (lines.foldl loadLine s).2).map (lines.foldl loadLine s).1.address =
        (List.range s.2).map s.1.address ++ lines.map (fun line => readHex digit (line.take 16)) ∧
      ∀ k, s.2 + lines.length ≤ k → (lines.foldl loadLine s).1.address k = s.1.address k := by
  induction lines generalizing s with
  | nil => simp
  | cons line lines ih =>
    obtain ⟨count, addresses, others⟩ :=
      ih (fun line later => long line (List.mem_cons_of_mem _ later)) (loadLine s line)
    have earlier : (List.range s.2).map (loadLine s line).1.address =
        (List.range s.2).map s.1.address := by
      refine List.map_congr_left fun k below => Function.update_of_ne ?_ _ _
      exact Nat.ne_of_lt (List.mem_range.mp below)
    have stored : (loadLine s line).1.address s.2 = readHex digit (line.take 16) := by
      simp only [loadLine, Function.update_self]
      exact readAddress_store _ (long line List.mem_cons_self)
    have next : (loadLine s line).2 = s.2 + 1 := rfl
    rw [next] at count addresses others
    rw [List.length_cons]
    refine ⟨?_, ?_, fun k beyond => ?_⟩
    · rw [List.foldl_cons, count]
      omega
    · rw [List.foldl_cons, addresses, List.range_succ, List.map_append, earlier,
        List.map_singleton, stored, List.map_cons, List.append_assoc, List.singleton_append]
    · rw [List.foldl_cons, others k (by omega)]
      exact Function.update_of_ne (by omega) _ _

/-- A file of lines that hold an address and fit into the buffer is loaded whole. -/
theorem load_lines {files : List Char → Option (List Char)} {cmd argument : List Char}
    {texts : List (List Char)} (whole : ∀ text ∈ texts, '\n' ∉ text)
    (fits : ∀ text ∈ texts, text.length + 1 < BUF_SIZE) (long : ∀ text ∈ texts, 16 ≤ text.length)
    (found : files (loadName cmd argument) = some (texts.flatMap (· ++ ['\n']))) (s : Globals) :
    ∃ loaded, load files true true cmd argument s = .ok loaded ∧
      loaded.address = texts.map (fun text => readHex digit (text.take 16)) ∧
      loaded.address = (List.range texts.length).map loaded.globals.address ∧
      loaded.addresscnt = decimal texts.length ∧
      loaded.stdout = "Read ".toList ++ decimal texts.length ++ " addresses\n".toList ∧
      ∀ k, texts.length ≤ k → loaded.globals.address k = s.address k := by
  have longLines : ∀ line ∈ texts.map (· ++ ['\n']), 16 ≤ line.length :=
    List.forall_mem_map.mpr fun text listed => Nat.le_trans (long text listed) (by simp)
  obtain ⟨count, addresses, others⟩ := foldl_loadLine longLines (s, 0)
  have front : (texts.map (· ++ ['\n'])).map (fun line => readHex digit (line.take 16)) =
      texts.map fun text => readHex digit (text.take 16) := by
    rw [List.map_map]
    refine List.map_congr_left fun text listed => ?_
    rw [Function.comp_apply, List.take_append_of_le_length (long text listed)]
  rw [List.length_map, Nat.zero_add] at count others
  rw [count, List.range_zero, List.map_nil, List.nil_append, front] at addresses
  rw [load, found]
  simp only [fgetsLines_flatMap whole fits, count, addresses]
  exact ⟨_, rfl, rfl, addresses.symm, rfl, rfl, others⟩

end Shell

open Analyzer Shell

/-- The shell reads an output of the analyzer back: the addresses that it stores and hands to the
driver are those of the printed lines, which are written in their first sixteen characters, in
order; it reports their number and stores nothing outside the table. -/
theorem addresses_survive (matched : List Char → Bool) (listing cmd argument : List Char)
    (files : List Char → Option (List Char)) (s : Globals)
    (output : files (loadName cmd argument) = some (parse .INSTR matched listing))
    (few : (printedLines matched false (fgetsLines BUF_LEN listing)).length ≤ N_ADDRESS) :
    ∃ loaded, load files true true cmd argument s = .ok loaded ∧
      loaded.address.map (hex16 '0') =
        (printedLines matched false (fgetsLines BUF_LEN listing)).map (List.take 16) ∧
      loaded.address = (List.range loaded.address.length).map loaded.globals.address ∧
      loaded.addresscnt = decimal loaded.address.length ∧
      loaded.stdout =
        "Read ".toList ++ decimal loaded.address.length ++ " addresses\n".toList ∧
      ∀ k, N_ADDRESS ≤ k → loaded.globals.address k = s.address k := by
  rw [parse_INSTR] at output
  generalize kept : printedLines matched false (fgetsLines BUF_LEN listing) = lines at *
  have every : ∀ buf ∈ lines, '\n' ∉ instrText buf ∧ (instrText buf).length + 1 < BUF_SIZE ∧
      16 ≤ (instrText buf).length ∧ (instrText buf).take 16 = buf.take 16 ∧
      ∃ address, buf.take 16 = hex16 '0' address := by
    intro buf listed
    rw [← kept] at listed
    obtain ⟨⟨line, read, rfl⟩, printed⟩ := mem_printedLines listed
    have short := length_trim_lt (by decide) read
    obtain ⟨one, length, rest⟩ := instrText_spec printed (newline_not_mem_trim read)
    exact ⟨one, by simp only [BUF_LEN, BUF_SIZE] at short ⊢; omega, rest⟩
  obtain ⟨loaded, ok, addresses, table, count, report, others⟩ := load_lines
    (List.forall_mem_map.mpr fun buf listed => (every buf listed).1)
    (List.forall_mem_map.mpr fun buf listed => (every buf listed).2.1)
    (List.forall_mem_map.mpr fun buf listed => (every buf listed).2.2.1) output s
  have number : loaded.address.length = (lines.map instrText).length := by
    rw [addresses, List.length_map]
  rw [← number] at table count report others
  refine ⟨loaded, ok, ?_, table, count, report, fun k beyond => others k ?_⟩
  · rw [addresses, List.map_map, List.map_map]
    refine List.map_congr_left fun buf listed => ?_
    obtain ⟨-, -, -, front, address, digits⟩ := every buf listed
    simp only [Function.comp_apply]
    rw [front, digits, readHex_hex16 digit_reads]
  · rw [number, List.length_map]
    omega

/-- A listing of one function with one memory access. -/
def oneAccess : List Char :=
  "0000000000000000 <f>:\n00000000ffffffff \t89 07                \tmov    %eax,(%rdi)\n".toList

set_option maxRecDepth 4096 in
/-- The address of one access is stored. -/
theorem addresses_survive_one :
    ∃ loaded, load (fun _ => some (parse .INSTR (fun _ => true) oneAccess)) true true
        "load".toList [] ⟨fun _ => nul, fun _ => 0⟩ = .ok loaded ∧
      loaded.address.map (hex16 '0') = ["00000000ffffffff".toList] := by
  obtain ⟨loaded, ok, addresses, -⟩ := addresses_survive (fun _ => true) oneAccess "load".toList []
    (fun _ => some (parse .INSTR (fun _ => true) oneAccess)) ⟨fun _ => nul, fun _ => 0⟩ rfl
    (by decide)
  exact ⟨loaded, ok, addresses.trans (by decide)⟩

end Drddr
