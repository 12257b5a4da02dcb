import Drddr.Machine.Memory
import Drddr.Machine.Stream
import Mathlib.Data.Nat.Find

/-!
# The control file

A write to `ctrl` is a command. It is copied into a buffer that keeps what earlier writes left in
it, and whatever is not a printable character there ends the command.
-/

namespace Drddr

open Machine

/-- `CMD_SIZE`. -/
def CMD_SIZE : Nat := 256

/-- `mybuf[i] >= 0x20 && mybuf[i] <= 0xff`; a character is signed. -/
def isKept (b : Byte) : Bool := decide (0x20 ≤ b.toInt ∧ b.toInt ≤ 0xff)

/-- The string in the buffer. -/
def commandText (mybuf : Nat → Byte) : List Byte := (front mybuf CMD_SIZE).takeWhile (· ≠ 0)

/-- The characters of a word. -/
def bytesOf (text : String) : List Byte := text.toList.map fun c => BitVec.ofNat 8 c.toNat

/-- What a write to the file asks for. -/
inductive Command where
  | start
  | stop
  | unknown (text : List Byte)
  deriving DecidableEq

/-- The characters that `update_status` puts in the place of others. -/
def cleaned (mybuf : Nat → Byte) : Nat → Byte := fun k =>
  if k = CMD_SIZE - 1 then 0
  else if k < CMD_SIZE ∧ isKept (mybuf k) = false then 0
  else mybuf k

/-- The comparisons of `update_status`. -/
def commandOf (text : List Byte) : Command :=
  if text = bytesOf "start" then .start
  else if text = bytesOf "stop" then .stop
  else .unknown text

/-- `write_ctrl`: the buffer, and the command if the write is not refused. Of the characters so many
can be copied; the others are zero then, and the write is refused. -/
def writeCtrl (mybuf : Nat → Byte) (buf : List Byte) (copied : Nat) :
    (Nat → Byte) × Option Command :=
  if CMD_SIZE ≤ buf.length then (mybuf, none)
  else
    let mybuf := fun k =>
      if k < buf.length then if k < copied then buf.getD k 0 else 0 else mybuf k
    if copied < buf.length then (mybuf, none)
    else
      let mybuf := cleaned (Function.update mybuf buf.length 0)
      (mybuf, some (commandOf (commandText mybuf)))

/-- `read_ctrl`, by a reader that asks for these counts. -/
def readCtrl (mybuf : Nat → Byte) (counts : List Nat) : List Byte :=
  readPieces mybuf ((commandText mybuf).length + 1) 0 counts

/-- The buffer after some writes, from the loading of the module on. -/
def afterWrites (writes : List (List Byte × Nat)) : Nat → Byte :=
  writes.foldl (fun mybuf write => (writeCtrl mybuf write.1 write.2).1) fun _ => 0

/-! ## The end of the string -/

variable {mybuf : Nat → Byte} {buf : List Byte} {copied : Nat}

/-- The last character of the buffer stays zero. -/
theorem writeCtrl_last (last : mybuf (CMD_SIZE - 1) = 0) :
    (writeCtrl mybuf buf copied).1 (CMD_SIZE - 1) = 0 := by
  rw [writeCtrl]
  split
  · exact last
  · rename_i short
    split
    · show (if CMD_SIZE - 1 < buf.length then _ else mybuf (CMD_SIZE - 1)) = 0
      rw [if_neg (by omega)]
      exact last
    · rfl

/-- After any writes the last character of the buffer is zero, so there is an end to the string. -/
theorem afterWrites_last (writes : List (List Byte × Nat)) :
    afterWrites writes (CMD_SIZE - 1) = 0 := by
  unfold afterWrites
  induction writes using List.reverseRecOn with
  | nil => rfl
  | append_singleton writes write ih =>
    rw [List.foldl_append]
    exact writeCtrl_last ih

/-- The string ends inside the buffer. -/
theorem commandText_ends (last : mybuf (CMD_SIZE - 1) = 0) :
    ∃ first < CMD_SIZE, commandText mybuf = front mybuf first ∧ mybuf first = 0 := by
  have zero : ∃ k, mybuf k = 0 := ⟨CMD_SIZE - 1, last⟩
  have inside : Nat.find zero < CMD_SIZE :=
    (Nat.find_min' zero last).trans_lt (by decide)
  refine ⟨Nat.find zero, inside, takeWhile_front inside (fun k before => ?_) ?_, Nat.find_spec zero⟩
  · exact decide_eq_true (Nat.find_min zero before)
  · exact decide_eq_false (not_not.mpr (Nat.find_spec zero))

/-- What is read is the string and its end, however it is cut. -/
theorem readCtrl_eq (last : mybuf (CMD_SIZE - 1) = 0) (counts : List Nat) :
    readCtrl mybuf counts = (commandText mybuf ++ [0]).take counts.sum := by
  obtain ⟨first, -, text, zero⟩ := commandText_ends last
  have size : (commandText mybuf).length = first := by rw [text, length_front]
  have whole : commandText mybuf ++ [0] = front mybuf (first + 1) := by
    have ends : front (fun k => mybuf (first + k)) 1 = [0] := congrArg ([·]) zero
    rw [front_add, ends, text]
  rw [readCtrl, readPieces_eq, whole, size]
  by_cases few : counts.sum ≤ first + 1
  · rw [Nat.min_eq_left few, take_front mybuf few]
  · rw [Nat.min_eq_right (by omega), List.take_of_length_le (by rw [length_front]; omega)]

/-! ## One write -/

/-- A character that `update_status` leaves, or what it puts in its place. -/
def cleanedByte (b : Byte) : Byte := if isKept b = false then 0 else b

/-- The end of a string is not a character that is kept, and those that are not are ends. -/
theorem cleanedByte_ne_zero (b : Byte) : cleanedByte b ≠ 0 ↔ isKept b = true := by
  revert b
  decide

/-- The string in what is written is its front up to a character that is not kept. -/
theorem takeWhile_cleaned (buf rest : List Byte) :
    (buf.map cleanedByte ++ 0 :: rest).takeWhile (· ≠ 0) = buf.takeWhile isKept := by
  induction buf with
  | nil => rfl
  | cons b buf ih =>
    rw [List.map_cons, List.cons_append, List.takeWhile_cons, List.takeWhile_cons, ih]
    cases kept : isKept b with
    | true =>
      have same : cleanedByte b = b := if_neg (by rw [kept]; decide)
      rw [if_pos (decide_eq_true ((cleanedByte_ne_zero b).mpr kept)), if_pos rfl, same]
    | false =>
      have gone : ¬cleanedByte b ≠ 0 := fun stays => by
        rw [(cleanedByte_ne_zero b).mp stays] at kept
        exact Bool.noConfusion kept
      rw [if_neg (by simpa using gone), if_neg Bool.false_ne_true]

/-- Whatever the buffer held, the string in it is that of the write. -/
theorem commandText_writeCtrl (mybuf : Nat → Byte) (short : buf.length < CMD_SIZE)
    (whole : buf.length ≤ copied) :
    (writeCtrl mybuf buf copied).2 = some (commandOf (buf.takeWhile isKept)) ∧
      commandText (writeCtrl mybuf buf copied).1 = buf.takeWhile isKept := by
  let after := cleaned (Function.update
    (fun k => if k < buf.length then if k < copied then buf.getD k 0 else 0 else mybuf k)
    buf.length 0)
  have written : writeCtrl mybuf buf copied = (after, some (commandOf (commandText after))) := by
    rw [writeCtrl, if_neg (by omega)]
    exact if_neg (by omega)
  have kept : front after buf.length = buf.map cleanedByte := by
    rw [← List.length_map (f := cleanedByte)]
    refine front_of_list fun k inside => ?_
    rw [List.length_map] at inside
    have value : Function.update
        (fun k => if k < buf.length then if k < copied then buf.getD k 0 else 0 else mybuf k)
        buf.length 0 k = buf[k] := by
      rw [Function.update_of_ne (Nat.ne_of_lt inside), if_pos inside, if_pos (by omega),
        List.getD_eq_getElem _ _ inside]
    have place : after k = cleanedByte buf[k] := by
      show cleaned _ k = _
      rw [cleaned, if_neg (by omega), value, cleanedByte]
      simp only [show k < CMD_SIZE by omega, true_and]
    rw [List.getElem?_map, List.getElem?_eq_getElem inside, place]
    rfl
  have ends : after buf.length = 0 := by
    show cleaned _ _ = _
    rw [cleaned, Function.update_self]
    split
    · rfl
    · split <;> rfl
  have text : commandText after = buf.takeWhile isKept := by
    obtain ⟨d, size⟩ := Nat.exists_eq_add_of_lt short
    have rest : front (fun k => after (buf.length + k)) (1 + d) =
        0 :: front (fun k => after (buf.length + (1 + k))) d := by
      rw [front_add]
      exact congrArg (· :: _) ends
    rw [commandText, size, Nat.add_assoc, Nat.add_comm d 1, front_add, kept, rest,
      takeWhile_cleaned]
  rw [written]
  exact ⟨by rw [text], text⟩

/-- Which command a write to the file is does not depend on earlier writes, refused or not: it is
the characters of this write up to the first one that is not printable. The same characters and
their end are read from the file afterwards, in any pieces. After a write that is refused, too, what
is read ends inside the buffer. -/
theorem ctrl_command (writes : List (List Byte × Nat)) (buf : List Byte) (copied : Nat)
    (counts : List Nat) :
    (buf.length < CMD_SIZE → buf.length ≤ copied →
      (writeCtrl (afterWrites writes) buf copied).2 = some (commandOf (buf.takeWhile isKept)) ∧
      readCtrl (writeCtrl (afterWrites writes) buf copied).1 counts =
        (buf.takeWhile isKept ++ [0]).take counts.sum) ∧
    (CMD_SIZE ≤ buf.length ∨ copied < buf.length →
      (writeCtrl (afterWrites writes) buf copied).2 = none ∧
      ∃ text, text.length < CMD_SIZE ∧
        readCtrl (writeCtrl (afterWrites writes) buf copied).1 counts =
          (text ++ [0]).take counts.sum) := by
  have last : (writeCtrl (afterWrites writes) buf copied).1 (CMD_SIZE - 1) = 0 :=
    writeCtrl_last (afterWrites_last writes)
  have read := readCtrl_eq last counts
  constructor
  · intro short whole
    obtain ⟨command, text⟩ := commandText_writeCtrl (afterWrites writes) short whole
    rw [text] at read
    exact ⟨command, read⟩
  · intro refused
    obtain ⟨first, inside, text, -⟩ := commandText_ends last
    refine ⟨?_, commandText (writeCtrl (afterWrites writes) buf copied).1, ?_, read⟩
    · rw [writeCtrl]
      by_cases long : CMD_SIZE ≤ buf.length
      · rw [if_pos long]
      · rw [if_neg long]
        exact congrArg Prod.snd (if_pos (refused.resolve_left long))
    · rw [text, length_front]
      exact inside

/-- `echo start`, after a longer command. -/
theorem ctrl_command_newline :
    (writeCtrl (afterWrites [(bytesOf "startled", 8)]) (bytesOf "start\n") 6).2 = some .start ∧
      readCtrl (writeCtrl (afterWrites [(bytesOf "startled", 8)]) (bytesOf "start\n") 6).1
        [2, 200] = bytesOf "start" ++ [0] := by
  obtain ⟨command, read⟩ := (ctrl_command [(bytesOf "startled", 8)] (bytesOf "start\n") 6
    [2, 200]).1 (by decide) (by decide)
  rw [command, read]
  decide

end Drddr
