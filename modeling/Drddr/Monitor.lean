import Drddr.Bp.Table
import Drddr.Machine.Format
import Drddr.Wp.Table
import Mathlib.Algebra.Order.BigOperators.Group.List
import Mathlib.Algebra.Order.Ring.Nat

/-!
# The monitor report

`mon_update` prints the two tables into a buffer of fixed size. Both printers are given that size
and neither looks at it.
-/

namespace Drddr

open Machine

/-- `MON_BUF_SIZE`. -/
def MON_BUF_SIZE : Nat := 65536

/-- The start of the line of an entry. -/
def breakpointText (i : Nat) (addr : Word) : List Char :=
  "    Breakpoint".toList ++ List.leftpad 5 ' ' (decimal i) ++ " at ".toList ++ hex16 '0' addr ++
    ": ".toList

/-- The end of the line of an entry, which says its state. -/
def stateText : BpState → List Char
  | .UNUSED => "UNUSED\n".toList
  | .USING => "USING\n".toList
  | .TRIGGERED => "TRIGGERED\n".toList

/-- `bp_monitor`, which is given the size of the buffer and does not look at it. -/
def bpMonitor (bp : Bp) (_limit : Nat) (s : PrintBuffer) : PrintBuffer :=
  (List.range bp.bpCount.toNat).foldl
    (fun s i => (s.print (breakpointText i (bp.bpAddr i))).print (stateText (bp.bpState i)))
    (s.print "Breakpoint status:\n".toList)

/-- The line of a slot. -/
def slotText (t : WpTable) (i : Fin 4) : List Char :=
  if t.wpUsage i then
    "    DR".toList ++ decimal i.val ++ " watching ".toList ++ hex16 ' ' (t.wpAddr i) ++
      " len ".toList ++ decimal (t.wpLength i) ++ " mode ".toList ++
      [if t.wpIswrite i then 'W' else 'R'] ++ "\n".toList
  else "    DR".toList ++ decimal i.val ++ " unused\n".toList

/-- `wp_monitor`. -/
def wpMonitor (t : WpTable) (_limit : Nat) (s : PrintBuffer) : PrintBuffer :=
  (List.finRange 4).foldl (fun s i => s.print (slotText t i))
    (s.print "Watchpoint status:\n".toList)

/-- `mon_update`: what this call has written to `mon_buf`, and its `cur`. -/
def monUpdate (bp : Bp) (t : WpTable) : PrintBuffer :=
  let s := wpMonitor t MON_BUF_SIZE (bpMonitor bp MON_BUF_SIZE .empty)
  { s with chars := Function.update s.chars s.pos (some nul) }

/-! ## The report -/

/-- The whole report. -/
def monReport (bp : Bp) (t : WpTable) : List Char :=
  "Breakpoint status:\n".toList ++
    (List.range bp.bpCount.toNat).flatMap (fun i =>
      breakpointText i (bp.bpAddr i) ++ stateText (bp.bpState i)) ++
    "Watchpoint status:\n".toList ++ (List.finRange 4).flatMap (slotText t)

/-- `mon_update` leaves the report in the buffer. -/
theorem monUpdate_holds (bp : Bp) (t : WpTable) : (monUpdate bp t).Holds (monReport bp t) := by
  have entries : (bpMonitor bp MON_BUF_SIZE .empty).Holds _ :=
    (PrintBuffer.holds_print_empty _).foldl (fun s text i held => by
      rw [← List.append_assoc]
      exact (held.print (breakpointText i (bp.bpAddr i))).print (stateText (bp.bpState i))) _
  have slots : (wpMonitor t MON_BUF_SIZE (bpMonitor bp MON_BUF_SIZE .empty)).Holds
      (monReport bp t) :=
    (entries.print _).foldl (fun s text i held => held.print (slotText t i)) _
  refine ⟨slots.pos, fun k => ?_⟩
  by_cases last : k = (monReport bp t).length
  · -- the print before it has left the same character there
    simp only [monUpdate, slots.pos, last, Function.update_self, List.getElem?_concat_length]
  · simp only [monUpdate, slots.pos, Function.update_of_ne last, slots.chars]

/-- The characters of the line of an entry: an index from 100000 on takes one place more. -/
def entryLength (i : Nat) : BpState → Nat
  | .UNUSED => if i < 100000 then 48 else 49
  | .USING => if i < 100000 then 47 else 48
  | .TRIGGERED => if i < 100000 then 51 else 52

/-- The characters of the line of a slot. -/
def slotLength (t : WpTable) (i : Fin 4) : Nat :=
  if t.wpUsage i then 46 + (decimal (t.wpLength i)).length else 15

/-- The line of an entry has the characters that it is said to have. -/
theorem length_entry {i : Nat} (inTable : i < N_ADDRESS) (addr : Word) (state : BpState) :
    (breakpointText i addr ++ stateText state).length = entryLength i state := by
  have six : i < 1000000 := by simp only [N_ADDRESS] at inTable; omega
  unfold breakpointText
  simp only [List.length_append, length_leftpad_decimal six, length_hex16]
  by_cases five : i < 100000
  · simp only [if_pos five]
    cases state <;> simp only [entryLength, if_pos five] <;> rfl
  · simp only [if_neg five]
    cases state <;> simp only [entryLength, if_neg five] <;> rfl

/-- The line of a slot has the characters that it is said to have. -/
theorem length_slotText (t : WpTable) (i : Fin 4) : (slotText t i).length = slotLength t i := by
  have digit : (decimal i.val).length = 1 := by
    change (Nat.toDigits 10 i.val).length = 1
    rw [Nat.toDigits_of_lt_base (by omega), List.length_singleton]
  rw [slotText, slotLength]
  split
  · have fixed : "    DR".length = 6 ∧ " watching ".length = 10 ∧ " len ".length = 5 ∧
        " mode ".length = 6 ∧ "\n".length = 1 := by decide
    simp only [List.length_append, digit, length_hex16, String.length_toList,
      List.length_singleton, fixed]
    omega
  · simp only [List.length_append, digit, String.length_toList]
    rfl

/-- The report has the characters of its headings and of its lines. -/
theorem length_monReport (bp : Bp) (t : WpTable) (count : bp.bpCount ≤ N_ADDRESS) :
    (monReport bp t).length =
      38 + ((List.range bp.bpCount.toNat).map fun i => entryLength i (bp.bpState i)).sum +
        ((List.finRange 4).map (slotLength t)).sum := by
  have entries : ((List.range bp.bpCount.toNat).map fun i =>
      (breakpointText i (bp.bpAddr i) ++ stateText (bp.bpState i)).length) =
      (List.range bp.bpCount.toNat).map fun i => entryLength i (bp.bpState i) := by
    refine List.map_congr_left fun i listed => length_entry ?_ _ _
    have := List.mem_range.mp listed
    omega
  have headings : "Breakpoint status:\n".length = 19 ∧ "Watchpoint status:\n".length = 19 := by
    decide
  have slots : ((List.finRange 4).map fun i => (slotText t i).length) =
      (List.finRange 4).map (slotLength t) :=
    List.map_congr_left fun i _ => length_slotText t i
  unfold monReport
  rw [List.length_append, List.length_append, List.length_append, List.length_flatMap,
    List.length_flatMap, entries, slots, String.length_toList, String.length_toList, headings.1,
    headings.2]
  omega

/-- No line of an entry is shorter than 47 characters. -/
theorem le_entryLength (i : Nat) (state : BpState) : 47 ≤ entryLength i state := by
  cases state <;> simp only [entryLength] <;> split <;> omega

/-- No line of a slot is shorter than fifteen characters. -/
theorem le_slotLength (t : WpTable) (i : Fin 4) : 15 ≤ slotLength t i := by
  rw [slotLength]
  split
  · omega
  · exact Nat.le_refl 15

/-- A table of this many entries is never reported within the buffer. -/
theorem monitor_overruns (bp : Bp) (t : WpTable) (count : bp.bpCount ≤ N_ADDRESS)
    (many : 1393 ≤ bp.bpCount) : MON_BUF_SIZE ≤ (monUpdate bp t).pos := by
  have entries := List.card_nsmul_le_sum
    ((List.range bp.bpCount.toNat).map fun i => entryLength i (bp.bpState i)) 47 (by
      intro n line
      obtain ⟨i, _, rfl⟩ := List.mem_map.mp line
      exact le_entryLength _ _)
  have slots := List.card_nsmul_le_sum ((List.finRange 4).map (slotLength t)) 15 (by
    intro n line
    obtain ⟨i, _, rfl⟩ := List.mem_map.mp line
    exact le_slotLength t i)
  rw [List.length_map, List.length_range, nsmul_eq_mul, Nat.cast_id] at entries
  rw [List.length_map, List.length_finRange, nsmul_eq_mul, Nat.cast_id] at slots
  rw [(monUpdate_holds bp t).pos, length_monReport bp t count, MON_BUF_SIZE]
  omega

/-- The position that `mon_update` reaches is inside the buffer, and so is everything that it
writes, exactly when the lines of the entries and of the slots have fewer characters together
than remain after the two headings. -/
theorem monitor_fits_iff (bp : Bp) (t : WpTable) (count : bp.bpCount ≤ N_ADDRESS) :
    ((monUpdate bp t).pos < MON_BUF_SIZE ∧
      ∀ k, MON_BUF_SIZE ≤ k → (monUpdate bp t).chars k = none) ↔
      38 + ((List.range bp.bpCount.toNat).map fun i => entryLength i (bp.bpState i)).sum +
        ((List.finRange 4).map (slotLength t)).sum < 65536 := by
  have held := monUpdate_holds bp t
  rw [held.pos, ← length_monReport bp t count]
  refine and_iff_left_of_imp fun inside k beyond => ?_
  rw [held.chars, List.getElem?_eq_none]
  simp only [List.length_append, List.length_singleton]
  omega

/-- The report on one entry and no slot in use fits the buffer. -/
theorem monitor_fits_one :
    (monUpdate { Bp.loaded noops with bpCount := 1 } WpTable.loaded).pos < MON_BUF_SIZE ∧
      ∀ k, MON_BUF_SIZE ≤ k →
        (monUpdate { Bp.loaded noops with bpCount := 1 } WpTable.loaded).chars k = none :=
  (monitor_fits_iff { Bp.loaded noops with bpCount := 1 } WpTable.loaded (by decide)).mpr
    (by decide)

/-- Two thousand entries that were never armed. -/
theorem monitor_overrun :
    ¬ ∀ (bp : Bp) (t : WpTable), 0 ≤ bp.bpCount → bp.bpCount ≤ N_ADDRESS →
      (monUpdate bp t).pos < MON_BUF_SIZE ∧
        ∀ k, MON_BUF_SIZE ≤ k → (monUpdate bp t).chars k = none := by
  intro fits
  have full : (2000 : Int) ≤ N_ADDRESS := by decide
  have inside := (fits { Bp.loaded noops with bpCount := 2000 } WpTable.loaded (by decide) full).1
  have overrun := monitor_overruns { Bp.loaded noops with bpCount := 2000 } WpTable.loaded full
    (by decide)
  omega

end Drddr
